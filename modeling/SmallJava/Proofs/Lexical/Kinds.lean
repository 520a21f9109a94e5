import SmallJava.Proofs.Lexical.Joining
import SmallJava.Proofs.Text.Lines

/-!
# Kinds of pieces

A text is cut by its first byte or two, and how far a piece reaches is said for each kind: an open string literal goes
to the end of its line (`cutString_open`), and a block comment to the first end behind its opening
(`commentEnd?_eq_some_iff`).
-/

namespace SmallJava

/-! ## By the first bytes -/

theorem cut_quote (r : Bytes) : cut (byte '"') r = cutString (byte '"' :: r) := rfl

theorem cut_blockComment (r : Bytes) : cut (byte '/') (byte '*' :: r) = cutBlockComment (byte '/' :: byte '*' :: r) := rfl

/-- No operator starts with a byte that starts something else. -/
theorem Token.first_of_operator : ∀ t ∈ Token.all, t.isOperator = true →
    (utf8 t.spelling).head?.any (fun b => !isBlank b && !isLetter b && !isDigit b && b != byte '"') = true := by
  decide

/-! ## How far a piece reaches -/

/-- An open string literal reaches to the end of its line. -/
theorem stringEnd_open {r : Bytes} {n : Nat} (h : stringEnd r = (n, false)) : n = run (· != byte '\n') r := by
  fun_induction stringEnd r generalizing n with
  | case1 => simp_all [run]
  | case2 => simp at h
  | case3 => simp_all [run]
  | case4 => simp_all [run]
  | case5 => simp_all [run]
  | case6 c r hc m closed hrest hq hn ih =>
    obtain ⟨rfl, rfl⟩ := Prod.mk.inj h
    rw [ih hrest]
    simp [run, hc, hn]
  | case7 b r hq hn hb m closed hrest ih =>
    obtain ⟨rfl, rfl⟩ := Prod.mk.inj h
    rw [ih hrest]
    simp [run, hn]

/-- An open string literal is the rest of its line. -/
theorem cutString_open {r : Bytes} {n : Nat} (h : stringEnd r = (n, false)) :
    cutString (byte '"' :: r) =
      { size := (withoutReturn (firstLine (byte '"' :: r))).length, token := some .invalid,
        fault := some (.unterminatedString, (withoutReturn (firstLine (byte '"' :: r))).length) } := by
  have hrun : run (· != byte '\n') (byte '"' :: r) = 1 + n := by
    rw [stringEnd_open h, Nat.add_comm]
    rfl
  have hline : (byte '"' :: r).take (1 + n) = firstLine (byte '"' :: r) := by
    rw [← hrun, take_run, firstLine]
  have hlength : (firstLine (byte '"' :: r)).length = 1 + n := hrun
  have hsize : (withoutReturn (firstLine (byte '"' :: r))).length
      = if (firstLine (byte '"' :: r)).getLast? = some (byte '\r') then n else 1 + n := by
    unfold withoutReturn
    split
    · rw [List.length_dropLast, hlength]
      omega
    · exact hlength
  simp only [cutString, List.drop_succ_cons, List.drop_zero, h, hline, hsize, Bool.false_eq_true, if_false]

/-- The text starts with the end of a block comment. -/
def EndsComment (text : Bytes) : Prop := utf8 "*/" <+: text

/-- A text starts with two bytes if they are its first two. -/
theorem pair_isPrefix_iff {x y b : UInt8} {r : Bytes} : [x, y] <+: b :: r ↔ b = x ∧ r.head? = some y := by
  rw [List.cons_prefix_cons]
  constructor
  · rintro ⟨rfl, k, rfl⟩
    exact ⟨rfl, rfl⟩
  · rintro ⟨rfl, hy⟩
    obtain ⟨k, rfl⟩ := List.head?_eq_some_iff.1 hy
    exact ⟨rfl, k, rfl⟩

/-- A comment is closed by a star and a slash. -/
theorem endsComment_iff {b : UInt8} {r : Bytes} :
    EndsComment (b :: r) ↔ b = byte '*' ∧ r.head? = some (byte '/') := pair_isPrefix_iff

theorem not_endsComment_nil : ¬ EndsComment [] := by
  rintro ⟨rest, hrest⟩
  cases hrest

theorem lt_length_of_endsComment {text : Bytes} {j : Nat} (h : EndsComment (text.drop j)) : j < text.length := by
  apply Nat.lt_of_not_le
  intro hle
  rw [List.drop_of_length_le hle] at h
  exact not_endsComment_nil h

/-- A block comment goes on to its first end. -/
theorem commentEnd?_eq_some_iff {text : Bytes} {n : Nat} :
    commentEnd? text = some n ↔
      ∃ k, n = k + 2 ∧ EndsComment (text.drop k) ∧ ∀ j, j < k → ¬ EndsComment (text.drop j) := by
  induction text generalizing n with
  | nil =>
    simp [commentEnd?, not_endsComment_nil]
  | cons b r ih =>
    by_cases hend : EndsComment (b :: r)
    · rw [commentEnd?, if_pos (endsComment_iff.1 hend)]
      constructor
      · intro h
        exact ⟨0, (Option.some.inj h).symm, hend, fun j hj => absurd hj (Nat.not_lt_zero j)⟩
      · rintro ⟨k, rfl, -, hfirst⟩
        cases k with
        | zero => rfl
        | succ k => exact absurd hend (hfirst 0 (Nat.succ_pos k))
    · rw [commentEnd?, if_neg fun h => hend (endsComment_iff.2 h), Option.map_eq_some_iff]
      constructor
      · rintro ⟨m, hm, rfl⟩
        obtain ⟨k, rfl, hk, hfirst⟩ := ih.1 hm
        refine ⟨k + 1, rfl, hk, fun j hj => ?_⟩
        cases j with
        | zero => exact hend
        | succ j => exact hfirst j (Nat.lt_of_succ_lt_succ hj)
      · rintro ⟨k, rfl, hk, hfirst⟩
        cases k with
        | zero => exact absurd hk hend
        | succ k =>
          refine ⟨k + 2, ih.2 ⟨k, rfl, hk, fun j hj => hfirst (j + 1) (Nat.succ_lt_succ hj)⟩, rfl⟩

/-- The text up to the first end of a comment. -/
theorem commentEnd?_split {text : Bytes} {n : Nat} (h : commentEnd? text = some n) :
    ∃ body rest, text = body ++ utf8 "*/" ++ rest ∧ n = body.length + 2 := by
  obtain ⟨k, rfl, ⟨rest, hrest⟩, -⟩ := commentEnd?_eq_some_iff.1 h
  have hlen := congrArg List.length hrest
  simp only [List.length_append, List.length_drop, show (utf8 "*/").length = 2 from rfl] at hlen
  refine ⟨text.take k, rest, ?_, ?_⟩
  · rw [List.append_assoc, hrest, List.take_append_drop]
  · rw [List.length_take]
    omega

/-- A comment is open if it is closed nowhere. -/
theorem commentEnd?_eq_none_iff {text : Bytes} :
    commentEnd? text = none ↔ ∀ j, ¬ EndsComment (text.drop j) := by
  induction text with
  | nil => simp [commentEnd?, not_endsComment_nil]
  | cons b r ih =>
    by_cases hend : EndsComment (b :: r)
    · rw [commentEnd?, if_pos (endsComment_iff.1 hend)]
      constructor
      · intro h
        cases h
      · intro h
        exact absurd hend (h 0)
    · rw [commentEnd?, if_neg fun h => hend (endsComment_iff.2 h), Option.map_eq_none_iff, ih]
      constructor
      · intro h j
        cases j with
        | zero => exact hend
        | succ j => exact h j
      · exact fun h j => h (j + 1)

end SmallJava
