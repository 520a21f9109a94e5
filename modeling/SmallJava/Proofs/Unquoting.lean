import SmallJava.Proofs.Quoting

/-!
# Literals byte by byte

`unescape` goes from one backslash to the next and takes what stands between them at once. A `Reader` goes over the same
text one byte at a time and remembers only whether a backslash waits for the byte behind it. Both come to the same
value, and both fail on the same texts.

* `Reader.finish_cons` — a byte that is read leaves to `unescape` the same value as before;
* `Reader.waiting_readAll_reverse` — a backslash waits at the end of a text behind an odd number of backslashes;
* `Reader.size_readAll` — each byte that is read is in the value, or waits, or was lost with a pair;
* `unquote_reads` — the literals that have a value, and which value they have.
-/

namespace SmallJava.StringLiteral

/-- A reader of the inside of a literal. -/
structure Reader where
  /-- The value of what has been read. -/
  value : Bytes := []
  /-- Whether a backslash waits for the byte behind it. -/
  waiting : Bool := false
  /-- How many pairs have been replaced by their second byte. -/
  replaced : Nat := 0

namespace Reader

/-- Reads one byte: behind a backslash, a quote or a backslash replaces the pair, and any other byte stands with the
backslash; a backslash that is not behind another one waits. -/
def read (r : Reader) (b : UInt8) : Reader :=
  if r.waiting then
    if b = byte '"' ∨ b = byte '\\' then
      { value := r.value ++ [b], waiting := false, replaced := r.replaced + 1 }
    else { r with value := r.value ++ [byte '\\', b], waiting := false }
  else if b = byte '\\' then { r with waiting := true }
  else { r with value := r.value ++ [b] }

/-- Reads a text from left to right. -/
def readAll (r : Reader) (text : Bytes) : Reader := text.foldl read r

/-- The backslash that waits, if there is one. -/
def held (r : Reader) : Bytes := if r.waiting then [byte '\\'] else []

/-- What `unescape` makes of the text `rest` behind what has been read. -/
def finish (r : Reader) (rest : Bytes) : Except Failure Bytes := (unescape (r.held ++ rest)).map (r.value ++ ·)

variable {r : Reader}

/-! ## One byte -/

theorem read_of_waiting (hr : r.waiting = true) {b : UInt8} (hb : b = byte '"' ∨ b = byte '\\') :
    r.read b = { value := r.value ++ [b], waiting := false, replaced := r.replaced + 1 } := by
  rw [read, if_pos hr, if_pos hb]

theorem read_of_waiting_other (hr : r.waiting = true) {b : UInt8} (hb : ¬ (b = byte '"' ∨ b = byte '\\')) :
    r.read b = { r with value := r.value ++ [byte '\\', b], waiting := false } := by
  rw [read, if_pos hr, if_neg hb]

theorem read_slash (hr : r.waiting = false) : r.read (byte '\\') = { r with waiting := true } := by
  rw [read, if_neg (by simp [hr]), if_pos rfl]

theorem read_plain (hr : r.waiting = false) {b : UInt8} (hb : b ≠ byte '\\') :
    r.read b = { r with value := r.value ++ [b] } := by
  rw [read, if_neg (by simp [hr]), if_neg hb]

/-- **A byte that is read changes nothing about the value of the whole text.** -/
theorem finish_cons (r : Reader) (b : UInt8) (rest : Bytes) : r.finish (b :: rest) = (r.read b).finish rest := by
  have hmap : ∀ (v w : Bytes) (x : Except Failure Bytes), (x.map (w ++ ·)).map (v ++ ·) = x.map (v ++ w ++ ·) := by
    intro v w x
    cases x <;> simp [Except.map]
  cases hr : r.waiting with
  | true =>
    have hpair : r.finish (b :: rest)
        = (unescape rest).map (r.value ++ (if isEscaped b then [b] else [byte '\\', b]) ++ ·) := by
      rw [finish, held, if_pos hr, List.singleton_append, unescape_pair, hmap]
    rw [hpair]
    by_cases hb : b = byte '"' ∨ b = byte '\\'
    · have hescaped : isEscaped b = true := by simpa [isEscaped] using hb
      rw [read_of_waiting hr hb, if_pos hescaped]
      rfl
    · have hescaped : ¬ isEscaped b = true := by simpa [isEscaped] using hb
      rw [read_of_waiting_other hr hb, if_neg hescaped]
      rfl
  | false =>
    by_cases hb : b = byte '\\'
    · subst hb
      rw [read_slash hr, finish, held, if_neg (by simp [hr])]
      rfl
    · rw [read_plain hr hb, finish, finish, held, held, if_neg (by simp [hr]), List.nil_append, unescape_plain hb]
      exact hmap r.value [b] (unescape rest)

/-- Only a backslash waits, and not behind one that waits already. -/
theorem waiting_read (r : Reader) (b : UInt8) : (r.read b).waiting = (!r.waiting && b == byte '\\') := by
  cases hr : r.waiting with
  | true =>
    by_cases hb : b = byte '"' ∨ b = byte '\\'
    · rw [read_of_waiting hr hb]
      rfl
    · rw [read_of_waiting_other hr hb]
      rfl
  | false =>
    by_cases hb : b = byte '\\'
    · rw [hb, read_slash hr]
      rfl
    · rw [read_plain hr hb]
      simp [hr, hb]

/-- The number of bytes that a reader accounts for. -/
def size (r : Reader) : Nat := r.value.length + r.held.length + r.replaced

/-- A pair that is replaced adds one byte to the value and any other pair two, and its backslash was waiting. -/
theorem size_read (r : Reader) (b : UInt8) : (r.read b).size = r.size + 1 := by
  cases hr : r.waiting with
  | true =>
    have hheld : r.held = [byte '\\'] := by rw [held, if_pos hr]
    by_cases hb : b = byte '"' ∨ b = byte '\\'
    · rw [read_of_waiting hr hb, size, size, hheld, List.length_append]
      show r.value.length + 1 + 0 + (r.replaced + 1) = r.value.length + 1 + r.replaced + 1
      omega
    · rw [read_of_waiting_other hr hb, size, size, hheld, List.length_append]
      show r.value.length + 2 + 0 + r.replaced = r.value.length + 1 + r.replaced + 1
      omega
  | false =>
    have hheld : r.held = [] := by rw [held, if_neg (by simp [hr])]
    by_cases hb : b = byte '\\'
    · rw [hb, read_slash hr, size, size, hheld]
      show r.value.length + 1 + r.replaced = r.value.length + 0 + r.replaced + 1
      omega
    · rw [read_plain hr hb, size, size, held, if_neg (by simp [hr]), hheld, List.length_append]
      show r.value.length + 1 + 0 + r.replaced = r.value.length + 0 + r.replaced + 1
      omega

/-! ## A whole text -/

/-- **Reading a text changes nothing about the value** of that text and what follows it. -/
theorem finish_append (r : Reader) (text rest : Bytes) : r.finish (text ++ rest) = (r.readAll text).finish rest := by
  induction text generalizing r with
  | nil => rfl
  | cons b text ih =>
    rw [List.cons_append, finish_cons, ih]
    rfl

/-- At the end of a text there is a value, unless a backslash waits. -/
theorem finish_nil (r : Reader) : r.finish [] = if r.waiting then .error .incompleteEscape else .ok r.value := by
  rw [finish, held, List.append_nil]
  cases r.waiting with
  | true =>
    have hlone : unescape [byte '\\'] = .error .incompleteEscape := unescape_eq _
    rw [if_pos rfl, if_pos rfl, hlone]
    rfl
  | false =>
    rw [if_neg Bool.false_ne_true, if_neg Bool.false_ne_true, unescape_nil]
    exact congrArg Except.ok (List.append_nil _)

theorem size_readAll (r : Reader) (text : Bytes) : (r.readAll text).size = r.size + text.length := by
  induction text generalizing r with
  | nil => rfl
  | cons b text ih =>
    show ((r.read b).readAll text).size = r.size + (text.length + 1)
    rw [ih, size_read]
    omega

/-- **A backslash waits at the end** exactly behind an odd number of backslashes. The text is given from its end. -/
theorem waiting_readAll_reverse (text : Bytes) :
    (readAll {} text.reverse).waiting = true ↔ run (· == byte '\\') text % 2 = 1 := by
  induction text with
  | nil => simp [readAll, run]
  | cons b text ih =>
    have hlast : (readAll {} (b :: text).reverse).waiting
        = (!(readAll {} text.reverse).waiting && b == byte '\\') := by
      rw [← waiting_read, List.reverse_cons, readAll, List.foldl_append]
      rfl
    rw [hlast]
    by_cases hb : b = byte '\\'
    · -- one backslash more, which waits if none did before
      subst hb
      have hrun : run (· == byte '\\') (byte '\\' :: text) = run (· == byte '\\') text + 1 := by simp [run]
      rw [hrun, beq_self_eq_true, Bool.and_true, Bool.not_eq_true', ← Bool.not_eq_true, ih]
      omega
    · have hrun : run (· == byte '\\') (b :: text) = 0 := by simp [run, hb]
      simp [hrun, hb]

end Reader

/-- The number of backslashes at the end of a text. -/
def slashesAtEnd (text : Bytes) : Nat := run (· == byte '\\') text.reverse

theorem waiting_readAll_iff (text : Bytes) :
    (Reader.readAll {} text).waiting = true ↔ slashesAtEnd text % 2 = 1 := by
  have h := Reader.waiting_readAll_reverse text.reverse
  rwa [List.reverse_reverse] at h

/-- **Going from backslash to backslash is reading byte by byte.** -/
theorem unescape_eq_readAll (text : Bytes) :
    unescape text = if (Reader.readAll {} text).waiting then .error .incompleteEscape
      else .ok (Reader.readAll {} text).value := by
  have hstart : Reader.finish {} text = unescape text := by
    show (unescape text).map ([] ++ ·) = unescape text
    cases unescape text <;> rfl
  rw [← hstart, ← Reader.finish_nil, ← Reader.finish_append, List.append_nil]

/-- Only a text between two quotes is taken for a literal. -/
theorem unquote_of_not_enclosed {text : Bytes}
    (h : text.length < 2 ∨ text.head? ≠ some (byte '"') ∨ text.getLast? ≠ some (byte '"')) :
    unquote text = .error .missingQuotes := by
  cases text with
  | nil => rfl
  | cons q r =>
    apply if_neg
    rintro ⟨rfl, hlast⟩
    have hr : r ≠ [] := by
      rintro rfl
      cases hlast
    rcases h with hshort | hfirst | hend
    · have hpos := List.length_pos_iff.2 hr
      rw [List.length_cons] at hshort
      omega
    · exact hfirst rfl
    · apply hend
      rw [List.getLast?_cons, hlast]
      rfl

/-- **Literals have the values that are read byte by byte.** A text between two quotes has no value exactly if it ends in
an odd number of backslashes. If it has one, then it is what a reader makes of the text from left to right, and it is
shorter than the text by the number of pairs that were replaced. A text of less than two bytes, or one that does not
both begin and end with a quote, has no value. -/
theorem unquote_reads :
    (∀ body : Bytes,
      let literal := byte '"' :: (body ++ [byte '"'])
      let final := Reader.readAll {} body
      ((∃ why, unquote literal = .error why) ↔ slashesAtEnd body % 2 = 1) ∧
        (¬ slashesAtEnd body % 2 = 1 →
          unquote literal = .ok final.value ∧ final.value.length + final.replaced = body.length)) ∧
    ∀ text : Bytes, text.length < 2 ∨ text.head? ≠ some (byte '"') ∨ text.getLast? ≠ some (byte '"') →
      ∃ why, unquote text = .error why := by
  refine ⟨?_, fun text h => ⟨_, unquote_of_not_enclosed h⟩⟩
  intro body literal final
  have hvalue : unquote literal = if final.waiting then .error .incompleteEscape else .ok final.value :=
    (unquote_enclosed body).trans (unescape_eq_readAll body)
  have hwaiting : final.waiting = true ↔ slashesAtEnd body % 2 = 1 := waiting_readAll_iff body
  have hsize : final.value.length + final.held.length + final.replaced = body.length := by
    have h := Reader.size_readAll {} body
    rwa [show Reader.size {} = 0 from rfl, Nat.zero_add] at h
  rw [← hwaiting]
  constructor
  · cases hw : final.waiting with
    | true => simp [hvalue, hw]
    | false => simp [hvalue, hw]
  · intro hw
    have hheld : final.held = [] := by
      rw [Reader.held, if_neg hw]
    rw [hheld] at hsize
    exact ⟨by rw [hvalue, if_neg hw], hsize⟩

/-- Three pairs are replaced, and one is kept. A backslash behind a pair of them is one too many. -/
theorem unquote_reads_pairs :
    ¬ slashesAtEnd (utf8 "a\\\"b\\\\\\n\\\\") % 2 = 1 ∧
      unquote (utf8 "\"a\\\"b\\\\\\n\\\\\"") = .ok (utf8 "a\"b\\\\n\\") ∧
      (utf8 "a\"b\\\\n\\").length + 3 = (utf8 "a\\\"b\\\\\\n\\\\").length ∧
      slashesAtEnd (utf8 "a\\\\\\") % 2 = 1 ∧
      (∃ why, unquote (utf8 "\"a\\\\\\\"") = .error why) ∧
      ∃ why, unquote (utf8 "\"") = .error why := by
  obtain ⟨hliteral, hother⟩ := unquote_reads
  have heven : ¬ slashesAtEnd (utf8 "a\\\"b\\\\\\n\\\\") % 2 = 1 := by decide
  have hodd : slashesAtEnd (utf8 "a\\\\\\") % 2 = 1 := by decide
  obtain ⟨hvalue, hsize⟩ := (hliteral (utf8 "a\\\"b\\\\\\n\\\\")).2 heven
  exact ⟨heven, hvalue, hsize, hodd, (hliteral (utf8 "a\\\\\\")).1.2 hodd, hother (utf8 "\"") (.inl (by decide))⟩

end SmallJava.StringLiteral
