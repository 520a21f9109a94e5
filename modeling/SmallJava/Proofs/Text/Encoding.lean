import SmallJava.Source

/-!
# Sequences of encoded characters

`IsEncoding text` says what well-formed UTF-8 is: the encodings of some characters, one after the other. The check
that sources go through is exact (`badOffset?_eq_none_iff`), texts that are put together stay well formed, and a
well-formed text may be cut at any ASCII byte (`IsEncoding.split`). Any text is characters up to its end or to a byte
that starts none, and `text_induction` goes along them.
-/

namespace SmallJava.Utf8

/-- The text encodes some characters. -/
def IsEncoding (text : Bytes) : Prop := ∃ cs : List Char, text = cs.flatMap String.utf8EncodeChar

theorem isEncoding_nil : IsEncoding [] := ⟨[], rfl⟩

theorem isEncoding_utf8 (s : String) : IsEncoding (utf8 s) := ⟨s.toList, rfl⟩

theorem isEncoding_char (c : Char) : IsEncoding (String.utf8EncodeChar c) := ⟨[c], by simp⟩

theorem IsEncoding.append {a b : Bytes} (ha : IsEncoding a) (hb : IsEncoding b) : IsEncoding (a ++ b) := by
  obtain ⟨cs, rfl⟩ := ha
  obtain ⟨ds, rfl⟩ := hb
  exact ⟨cs ++ ds, List.flatMap_append.symm⟩

/-! ## One character -/

/-- The guess is right about an encoded character. -/
theorem guess_encode (c : Char) (r : Bytes) :
    ∃ a t, String.utf8EncodeChar c = a :: t ∧ guess a (t ++ r) = c.toNat := by
  have hbound : c.val.toNat < 0x110000 := by
    rcases c.valid with h | ⟨-, h⟩
    · exact Nat.lt_trans h (by decide)
    · exact h
  have hnat : c.toNat = c.val.toNat := rfl
  -- the four lengths of an encoding; in each of them the guess is arithmetic
  simp only [String.utf8EncodeChar]
  repeat' split
  all_goals
    refine ⟨_, _, rfl, ?_⟩
    simp [guess, UInt8.lt_iff_toNat_lt]
    repeat' split
    all_goals omega

theorem first?_encode (c : Char) (r : Bytes) : first? (String.utf8EncodeChar c ++ r) = some c := by
  obtain ⟨a, t, henc, hguess⟩ := guess_encode c r
  have hself : (String.utf8EncodeChar c).isPrefixOf (String.utf8EncodeChar c ++ r) = true := by simp
  rw [henc] at hself ⊢
  simp only [List.cons_append, first?, hguess, Char.ofNat_toNat, henc]
  exact if_pos hself

/-- Only ASCII characters have bytes below `0x80`. -/
theorem le_of_mem_encode {c : Char} (hc : ¬ c.val.toNat ≤ 127) :
    ∀ q ∈ String.utf8EncodeChar c, 0x80 ≤ q.toNat := by
  simp only [String.utf8EncodeChar, if_neg hc]
  repeat' split
  all_goals
    simp only [List.forall_mem_cons, UInt8.toNat_ofNat', List.not_mem_nil, false_implies, implies_true, and_true]
    omega

theorem encode_eq_singleton {c : Char} {q : UInt8} (hq : q < 0x80) (h : q ∈ String.utf8EncodeChar c) :
    String.utf8EncodeChar c = [q] := by
  by_cases hc : c.val.toNat ≤ 127
  · simp only [String.utf8EncodeChar, if_pos hc, List.mem_singleton] at h ⊢
    rw [h]
  · exact absurd hq (UInt8.not_lt.2 (UInt8.le_iff_toNat_le.2 (le_of_mem_encode hc q h)))

/-! ## Whole texts -/

/-- An ASCII byte is an encoded character. -/
theorem isEncoding_singleton {b : UInt8} (hb : b < 0x80) : IsEncoding [b] := by
  refine ⟨[Char.ofUInt8 b], ?_⟩
  have hle : b.toNat ≤ 127 := Nat.le_of_lt_succ (UInt8.lt_iff_toNat_lt.1 hb)
  have hval : (Char.ofUInt8 b).val.toNat = b.toNat := UInt8.toNat_toUInt32 b
  simp [String.utf8EncodeChar, hval, hle]

theorem isEncoding_of_ascii {text : Bytes} (h : ∀ b ∈ text, b < 0x80) : IsEncoding text := by
  induction text with
  | nil => exact isEncoding_nil
  | cons b r ih =>
    obtain ⟨hb, hr⟩ := List.forall_mem_cons.1 h
    exact (isEncoding_singleton hb).append (ih hr)

/-- An encoded text may be cut at an ASCII byte. -/
theorem IsEncoding.split {a b : Bytes} {q : UInt8} (h : IsEncoding (a ++ q :: b)) (hq : q < 0x80) :
    IsEncoding a ∧ IsEncoding b := by
  obtain ⟨cs, hcs⟩ := h
  induction cs generalizing a with
  | nil => simp at hcs
  | cons c cs ih =>
    rw [List.flatMap_cons] at hcs
    rcases List.append_eq_append_iff.1 hcs with ⟨c', henc, hrest⟩ | ⟨a', rfl, hrest⟩
    · cases c' with
      | nil =>
        obtain ⟨-, hb⟩ := ih (a := []) hrest
        rw [List.append_nil] at henc
        exact ⟨henc ▸ isEncoding_char c, hb⟩
      | cons q' c' =>
        -- the byte is one of the encoding of `c`, so it is all of it
        obtain ⟨rfl, rfl⟩ := List.cons.inj hrest
        have hc : String.utf8EncodeChar c = [q] := encode_eq_singleton hq (by rw [henc]; simp)
        rw [henc] at hc
        obtain ⟨rfl, rfl⟩ : a = [] ∧ c' = [] := by
          cases a <;> simp_all
        exact ⟨isEncoding_nil, ⟨cs, rfl⟩⟩
    · obtain ⟨ha, hb⟩ := ih hrest.symm
      exact ⟨(isEncoding_char c).append ha, hb⟩

theorem badOffsetFrom_skip (offset n : Nat) (text : Bytes) :
    badOffsetFrom offset n text = badOffsetFrom (offset + n) 0 (text.drop n) := by
  induction n generalizing offset text with
  | zero => rfl
  | succ n ih =>
    cases text with
    | nil => simp [badOffsetFrom]
    | cons b r =>
      rw [badOffsetFrom, ih, List.drop_succ_cons]
      congr 1
      omega

/-- The check passes over an encoded character. -/
theorem badOffsetFrom_encode (offset : Nat) (c : Char) (r : Bytes) :
    badOffsetFrom offset 0 (String.utf8EncodeChar c ++ r) = badOffsetFrom (offset + c.utf8Size) 0 r := by
  have hfirst := first?_encode c r
  have hlen := String.length_utf8EncodeChar c
  cases henc : String.utf8EncodeChar c with
  | nil => exact absurd henc String.utf8EncodeChar_ne_nil
  | cons a t =>
    rw [henc] at hfirst hlen
    rw [List.cons_append] at hfirst ⊢
    rw [badOffsetFrom, hfirst]
    have hsize : c.utf8Size = t.length + 1 := hlen.symm
    simp only [badOffsetFrom_skip (offset + 1), hsize, Nat.add_sub_cancel, List.drop_left']
    congr 1
    omega

/-- Induction along the characters of a text, up to its end or to a byte that starts no character. -/
theorem text_induction {motive : Bytes → Prop} (nil : motive [])
    (bad : ∀ a r, first? (a :: r) = none → motive (a :: r))
    (char : ∀ c text, motive text → motive (String.utf8EncodeChar c ++ text)) (text : Bytes) : motive text := by
  induction hn : text.length using Nat.strongRecOn generalizing text with
  | ind n ih =>
    cases text with
    | nil => exact nil
    | cons a r =>
      cases hfirst : first? (a :: r) with
      | none => exact bad a r hfirst
      | some c =>
        obtain ⟨rest, hrest⟩ := List.isPrefixOf_iff_prefix.1 (isPrefixOf_of_first? hfirst)
        rw [← hrest] at hn ⊢
        apply char
        refine ih rest.length ?_ rest rfl
        have hpos := Char.utf8Size_pos c
        rw [List.length_append, String.length_utf8EncodeChar] at hn
        omega

theorem badOffsetFrom_eq_none_iff (offset : Nat) (text : Bytes) :
    badOffsetFrom offset 0 text = none ↔ IsEncoding text := by
  constructor
  · intro h
    induction text using text_induction generalizing offset with
    | nil => exact isEncoding_nil
    | bad a r hfirst => simp [badOffsetFrom, hfirst] at h
    | char c text ih =>
      rw [badOffsetFrom_encode] at h
      exact (isEncoding_char c).append (ih _ h)
  · rintro ⟨cs, rfl⟩
    induction cs generalizing offset with
    | nil => rfl
    | cons c cs ih => rw [List.flatMap_cons, badOffsetFrom_encode, ih]

/-- **Sources are exactly the texts that encode characters.** -/
theorem badOffset?_eq_none_iff (text : Bytes) : badOffset? text = none ↔ IsEncoding text :=
  badOffsetFrom_eq_none_iff 0 text

/-! ## Between two characters -/

/-- What follows an encoded beginning of an encoded text is encoded. -/
theorem IsEncoding.of_append {a b : Bytes} (h : IsEncoding (a ++ b)) (ha : IsEncoding a) : IsEncoding b := by
  obtain ⟨cs, rfl⟩ := ha
  induction cs with
  | nil => exact h
  | cons c cs ih =>
    apply ih
    rw [List.flatMap_cons, List.append_assoc, ← badOffsetFrom_eq_none_iff 0, badOffsetFrom_encode] at h
    exact (badOffsetFrom_eq_none_iff _ _).1 h

/-- An encoded text may be cut in front of an ASCII byte. -/
theorem IsEncoding.take_of_next {text : Bytes} (h : IsEncoding text) {n : Nat}
    (hnext : ∀ q ∈ (text.drop n).head?, q < 0x80) : IsEncoding (text.take n) := by
  rw [← List.take_append_drop n text] at h
  cases hdrop : text.drop n with
  | nil => rwa [hdrop, List.append_nil] at h
  | cons q b =>
    rw [hdrop] at h hnext
    exact (h.split (hnext q rfl)).1

end SmallJava.Utf8
