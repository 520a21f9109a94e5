import SmallJava.Proofs.Lexical.Longest
import SmallJava.Proofs.Printing.Text

/-!
# Well-formed texts

What UTF-8 is, said by the bits of the bytes: a first byte says how many others follow, these hold six bits each, and
the number that all bits make up must be one that needs so many bytes, not a surrogate, and not too large. The characters
are exactly these numbers, so a text encodes characters if it is made of such forms (`mem_kstar_encoding_iff`).

Whether a text is well formed and where it stops being so are two questions. `firstInvalid` answers the second by going
from character to character; it takes U+FFFD for the sign of a bad byte only if it was read from one byte.

* `Utf8.Spells` — the forms;
* `Utf8.longest_of_badOffset?` — a bad byte stands behind the longest beginning of the text that is well formed;
* `Source.ofBytes_checks` — the texts of sources, and what is said about others.
-/

namespace SmallJava

open scoped Computability

open Lexicon (Longest)

namespace Utf8

/-! ## Forms -/

/-- A byte `10xxxxxx`, which goes on with a form. -/
def IsTail (b : UInt8) : Prop := b.toNat / 64 = 0b10

/-- The bytes are the form of the number `n`: one that is no longer than `n` needs (no overlong forms), for a number that
is not a surrogate and not above U+10FFFF. -/
inductive Spells : Bytes → Nat → Prop where
  /-- `0xxxxxxx` -/
  | one {a : UInt8} {n : Nat} : n = a.toNat → n < 0x80 → Spells [a] n
  /-- `110xxxxx 10xxxxxx` -/
  | two {a b : UInt8} {n : Nat} : a.toNat / 32 = 0b110 → IsTail b →
      n = a.toNat % 32 * 64 + b.toNat % 64 → 0x80 ≤ n → Spells [a, b] n
  /-- `1110xxxx 10xxxxxx 10xxxxxx` -/
  | three {a b c : UInt8} {n : Nat} : a.toNat / 16 = 0b1110 → IsTail b → IsTail c →
      n = (a.toNat % 16 * 64 + b.toNat % 64) * 64 + c.toNat % 64 → 0x800 ≤ n → ¬ (0xD800 ≤ n ∧ n ≤ 0xDFFF) →
      Spells [a, b, c] n
  /-- `11110xxx 10xxxxxx 10xxxxxx 10xxxxxx` -/
  | four {a b c d : UInt8} {n : Nat} : a.toNat / 8 = 0b11110 → IsTail b → IsTail c → IsTail d →
      n = ((a.toNat % 8 * 64 + b.toNat % 64) * 64 + c.toNat % 64) * 64 + d.toNat % 64 → 0x10000 ≤ n → n ≤ 0x10FFFF →
      Spells [a, b, c, d] n

/-- The forms of all numbers that have one. -/
def encoding : Language UInt8 := { w | ∃ n, Spells w n }

/-- The number of a byte, with the bound as a numeral. -/
theorem toNat_ofNat {m : Nat} (h : m < 256) : (UInt8.ofNat m).toNat = m :=
  UInt8.toNat_ofNat_of_lt' h

/-- A tail is made of its tag and six bits. -/
theorem isTail_of_toNat {b : UInt8} {m : Nat} (h : b.toNat = m % 64 + 128) : IsTail b := by
  rw [IsTail, h]
  omega

/-- Characters are written in the form of their number. -/
theorem spells_encode (c : Char) : Spells (String.utf8EncodeChar c) c.val.toNat := by
  have hvalid : c.val.toNat < 0xD800 ∨ 0xDFFF < c.val.toNat ∧ c.val.toNat < 0x110000 := c.valid
  rw [String.utf8EncodeChar]
  -- the four lengths of an encoding; each byte holds a tag and some bits of the number
  by_cases hone : c.val.toNat ≤ 127
  · rw [if_pos hone]
    exact .one (toNat_ofNat (by omega)).symm (by omega)
  by_cases htwo : c.val.toNat ≤ 2047
  · have hfirst : (UInt8.ofNat (c.val.toNat / 64 % 32 + 192)).toNat = _ := toNat_ofNat (by omega)
    have hsecond : (UInt8.ofNat (c.val.toNat % 64 + 128)).toNat = _ := toNat_ofNat (by omega)
    rw [if_neg hone, if_pos htwo]
    refine .two ?_ (isTail_of_toNat hsecond) ?_ (by omega)
    · rw [hfirst]
      omega
    · rw [hfirst, hsecond]
      omega
  have hlast : (UInt8.ofNat (c.val.toNat % 64 + 128)).toNat = _ := toNat_ofNat (by omega)
  have hbefore : (UInt8.ofNat (c.val.toNat / 64 % 64 + 128)).toNat = _ := toNat_ofNat (by omega)
  by_cases hthree : c.val.toNat ≤ 65535
  · have hfirst : (UInt8.ofNat (c.val.toNat / 4096 % 16 + 224)).toNat = _ := toNat_ofNat (by omega)
    rw [if_neg hone, if_neg htwo, if_pos hthree]
    refine .three ?_ (isTail_of_toNat hbefore) (isTail_of_toNat hlast) ?_ (by omega) (by omega)
    · rw [hfirst]
      omega
    · rw [hfirst, hbefore, hlast]
      omega
  · have hfirst : (UInt8.ofNat (c.val.toNat / 262144 % 8 + 240)).toNat = _ := toNat_ofNat (by omega)
    have hsecond : (UInt8.ofNat (c.val.toNat / 4096 % 64 + 128)).toNat = _ := toNat_ofNat (by omega)
    rw [if_neg hone, if_neg htwo, if_neg hthree]
    refine .four ?_ (isTail_of_toNat hsecond) (isTail_of_toNat hbefore) (isTail_of_toNat hlast) ?_ (by omega) (by omega)
    · rw [hfirst]
      omega
    · rw [hfirst, hsecond, hbefore, hlast]
      omega

/-- The character with a given number. -/
theorem exists_char {n : Nat} (h : n < 0xD800 ∨ 0xDFFF < n ∧ n < 0x110000) : ∃ c : Char, c.val.toNat = n :=
  ⟨Char.ofNatAux n h, UInt32.toNat_ofNatLT⟩

/-- A number that has a form is that of a character. -/
theorem Spells.scalar {w : Bytes} {n : Nat} (h : Spells w n) : n < 0xD800 ∨ 0xDFFF < n ∧ n < 0x110000 := by
  cases h with
  | one hn hmax => omega
  | two ha hb hn hmin => omega
  | three ha hb hc hn hmin hsurrogate => omega
  | four ha hb hc hd hn hmin hmax => omega

theorem eq_ofNat {b : UInt8} {m : Nat} (h : b.toNat = m) : b = UInt8.ofNat m := by
  rw [← h, UInt8.ofNat_toNat]

/-- A form is the encoding of a character. -/
theorem Spells.eq_encode {w : Bytes} {n : Nat} (h : Spells w n) : ∃ c : Char, w = String.utf8EncodeChar c := by
  obtain ⟨c, rfl⟩ := exists_char h.scalar
  refine ⟨c, ?_⟩
  -- the number says how many bytes there are, and each byte is read off the form
  cases h with
  | @one a _ hn hmax =>
    rw [String.utf8EncodeChar, if_pos (by omega), eq_ofNat hn.symm]
  | @two a b _ ha hb hn hmin =>
    unfold IsTail at hb
    have hfirst : a.toNat = c.val.toNat / 64 % 32 + 192 := by omega
    have hsecond : b.toNat = c.val.toNat % 64 + 128 := by omega
    rw [String.utf8EncodeChar, if_neg (by omega), if_pos (by omega), eq_ofNat hfirst, eq_ofNat hsecond]
  | @three a b d _ ha hb hd hn hmin _ =>
    unfold IsTail at hb hd
    have hfirst : a.toNat = c.val.toNat / 4096 % 16 + 224 := by omega
    have hsecond : b.toNat = c.val.toNat / 64 % 64 + 128 := by omega
    have hthird : d.toNat = c.val.toNat % 64 + 128 := by omega
    rw [String.utf8EncodeChar, if_neg (by omega), if_neg (by omega), if_pos (by omega), eq_ofNat hfirst,
      eq_ofNat hsecond, eq_ofNat hthird]
  | @four a b d e _ ha hb hd he hn hmin hmax =>
    unfold IsTail at hb hd he
    have hfirst : a.toNat = c.val.toNat / 262144 % 8 + 240 := by omega
    have hsecond : b.toNat = c.val.toNat / 4096 % 64 + 128 := by omega
    have hthird : d.toNat = c.val.toNat / 64 % 64 + 128 := by omega
    have hfourth : e.toNat = c.val.toNat % 64 + 128 := by omega
    rw [String.utf8EncodeChar, if_neg (by omega), if_neg (by omega), if_neg (by omega), eq_ofNat hfirst,
      eq_ofNat hsecond, eq_ofNat hthird, eq_ofNat hfourth]

theorem mem_encoding_iff {w : Bytes} : w ∈ encoding ↔ ∃ c : Char, w = String.utf8EncodeChar c := by
  constructor
  · rintro ⟨n, h⟩
    exact h.eq_encode
  · rintro ⟨c, rfl⟩
    exact ⟨c.val.toNat, spells_encode c⟩

/-- **Made of forms, or the encodings of characters.** -/
theorem mem_kstar_encoding_iff {text : Bytes} : text ∈ encoding∗ ↔ IsEncoding text := by
  rw [Language.mem_kstar]
  constructor
  · rintro ⟨ws, rfl, hws⟩
    induction ws with
    | nil => exact isEncoding_nil
    | cons w ws ih =>
      obtain ⟨hw, hrest⟩ := List.forall_mem_cons.1 hws
      obtain ⟨c, rfl⟩ := mem_encoding_iff.1 hw
      exact (isEncoding_char c).append (ih hrest)
  · rintro ⟨cs, rfl⟩
    refine ⟨cs.map String.utf8EncodeChar, List.flatMap_def, ?_⟩
    intro w hw
    obtain ⟨c, -, rfl⟩ := List.mem_map.1 hw
    exact mem_encoding_iff.2 ⟨c, rfl⟩

/-! ## The first bad byte -/

/-- A bad byte stands behind a well-formed beginning of the text. -/
theorem exists_of_badOffsetFrom {offset n : Nat} {text : Bytes} (h : badOffsetFrom offset 0 text = some n) :
    ∃ front a r, text = front ++ a :: r ∧ n = offset + front.length ∧ IsEncoding front ∧ first? (a :: r) = none := by
  induction text using text_induction generalizing offset with
  | nil => cases h
  | bad a r hfirst =>
    rw [badOffsetFrom, hfirst] at h
    exact ⟨[], a, r, rfl, (Option.some.inj h).symm, isEncoding_nil, hfirst⟩
  | char c text ih =>
    rw [badOffsetFrom_encode] at h
    obtain ⟨front, a, r, rfl, rfl, hfront, hfirst⟩ := ih h
    refine ⟨String.utf8EncodeChar c ++ front, a, r, (List.append_assoc ..).symm, ?_,
      (isEncoding_char c).append hfront, hfirst⟩
    rw [List.length_append, String.length_utf8EncodeChar, Nat.add_assoc]

/-- A text that is well formed and not empty starts with a character, whatever follows it. -/
theorem IsEncoding.first?_ne_none {text : Bytes} (h : IsEncoding text) (hne : text ≠ []) (rest : Bytes) :
    first? (text ++ rest) ≠ none := by
  obtain ⟨cs, rfl⟩ := h
  cases cs with
  | nil => exact absurd rfl hne
  | cons c cs =>
    rw [List.flatMap_cons, List.append_assoc, first?_encode]
    exact Option.some_ne_none c

/-- **The first bad byte stands behind the longest well-formed beginning of the text.** -/
theorem longest_of_badOffset? {text : Bytes} {n : Nat} (h : badOffset? text = some n) :
    n < text.length ∧ Longest encoding∗ text (text.take n) := by
  obtain ⟨front, a, r, rfl, hn, hfront, hfirst⟩ := exists_of_badOffsetFrom h
  obtain rfl : n = front.length := hn.trans (Nat.zero_add _)
  rw [List.take_left]
  refine ⟨by simp, mem_kstar_encoding_iff.2 hfront, List.prefix_append _ _, ?_⟩
  intro v hv hprefix
  apply Nat.le_of_not_lt
  intro hlonger
  -- a longer beginning would go on with a character where none starts
  obtain ⟨u, rfl⟩ := List.prefix_of_prefix_length_le (List.prefix_append front (a :: r)) hprefix (Nat.le_of_lt hlonger)
  have hu : IsEncoding u := (mem_kstar_encoding_iff.1 hv).of_append hfront
  have hne : u ≠ [] := by
    rintro rfl
    rw [List.append_nil] at hlonger
    exact Nat.lt_irrefl _ hlonger
  obtain ⟨rest, hrest⟩ := (List.prefix_append_right_inj front).1 hprefix
  rw [← hrest] at hfirst
  exact hu.first?_ne_none hne rest hfirst

/-! ## From character to character -/

/-- The character that a text starts with, and the number of its bytes. A byte that starts no character is read as
U+FFFD, and so is the end of the text, in no byte. -/
def decodeFirst (text : Bytes) : Char × Nat :=
  match first? text with
  | some c => (c, c.utf8Size)
  | none => ('\uFFFD', min 1 text.length)

theorem decodeFirst_encode (c : Char) (r : Bytes) :
    decodeFirst (String.utf8EncodeChar c ++ r) = (c, c.utf8Size) := by
  rw [decodeFirst, first?_encode]

theorem decodeFirst_bad {a : UInt8} {r : Bytes} (h : first? (a :: r) = none) : decodeFirst (a :: r) = ('\uFFFD', 1) := by
  rw [decodeFirst, h, List.length_cons, Nat.min_eq_left (Nat.le_add_left 1 _)]

theorem decodeFirst_size_pos {text : Bytes} (h : text ≠ []) : 0 < (decodeFirst text).2 := by
  obtain ⟨a, r, rfl⟩ := List.exists_cons_of_ne_nil h
  cases hfirst : first? (a :: r) with
  | none =>
    rw [decodeFirst_bad hfirst]
    exact Nat.one_pos
  | some c =>
    rw [decodeFirst, hfirst]
    exact Char.utf8Size_pos c

/-- Goes from character to character, up to one that was read as U+FFFD from a single byte, or to the end; `offset` bytes
lie behind. -/
def firstInvalidFrom (offset : Nat) (text : Bytes) : Nat :=
  if _ : text = [] then offset
  else if (decodeFirst text).1 = '\uFFFD' ∧ (decodeFirst text).2 ≤ 1 then offset
  else firstInvalidFrom (offset + (decodeFirst text).2) (text.drop (decodeFirst text).2)
termination_by text.length
decreasing_by
  have hne : text ≠ [] := by assumption
  have hsize := decodeFirst_size_pos hne
  have hlength := List.length_pos_iff.2 hne
  rw [List.length_drop]
  omega

/-- The offset of the first byte that starts no character, or the length of the text. -/
def firstInvalid (text : Bytes) : Nat := firstInvalidFrom 0 text

/-- **Both searches come to the same byte.** -/
theorem firstInvalidFrom_eq (offset : Nat) (text : Bytes) :
    firstInvalidFrom offset text = (badOffsetFrom offset 0 text).getD (offset + text.length) := by
  induction text using text_induction generalizing offset with
  | nil => simp [firstInvalidFrom, badOffsetFrom]
  | bad a r hfirst =>
    rw [firstInvalidFrom, dif_neg (List.cons_ne_nil a r), decodeFirst_bad hfirst, if_pos ⟨rfl, Nat.le_refl 1⟩,
      badOffsetFrom, hfirst]
    rfl
  | char c text ih =>
    have hne : String.utf8EncodeChar c ++ text ≠ [] := List.append_ne_nil_of_left_ne_nil String.utf8EncodeChar_ne_nil _
    -- an encoded U+FFFD has three bytes
    have hwide : ¬ (c = '\uFFFD' ∧ c.utf8Size ≤ 1) := by
      rintro ⟨rfl, hsize⟩
      exact absurd hsize (by decide)
    have hdrop : (String.utf8EncodeChar c ++ text).drop c.utf8Size = text :=
      List.drop_left' (String.length_utf8EncodeChar c)
    rw [firstInvalidFrom, dif_neg hne, decodeFirst_encode, if_neg hwide, hdrop, ih, badOffsetFrom_encode,
      List.length_append, String.length_utf8EncodeChar, Nat.add_assoc]

theorem firstInvalid_of_badOffset? {text : Bytes} {n : Nat} (h : badOffset? text = some n) : firstInvalid text = n := by
  rw [firstInvalid, firstInvalidFrom_eq, show badOffsetFrom 0 0 text = some n from h, Option.getD_some]

end Utf8

namespace Source

theorem ofBytes_of_badOffset? (name : String) {text : Bytes} {n : Nat} (h : Utf8.badOffset? text = some n) :
    ofBytes name text = .error ⟨name, n⟩ := by
  unfold ofBytes
  split
  · next hgood => simp [h] at hgood
  · next m hbad =>
    obtain rfl : n = m := Option.some.inj (h.symm.trans hbad)
    rfl

/-- The source of a text has this text and the given name. -/
theorem eq_of_ofBytes {name : String} {text : Bytes} {s : Source} (h : ofBytes name text = .ok s) :
    s.name = name ∧ s.text = text := by
  unfold ofBytes at h
  split at h
  · cases h
    exact ⟨rfl, rfl⟩
  · cases h

/-- **A text has a source if it is well formed, and only then.** -/
theorem exists_ofBytes_iff {name : String} {text : Bytes} :
    (∃ s, ofBytes name text = .ok s) ↔ text ∈ Utf8.encoding∗ := by
  constructor
  · rintro ⟨s, hs⟩
    rw [← (eq_of_ofBytes hs).2, Utf8.mem_kstar_encoding_iff, ← Utf8.badOffset?_eq_none_iff]
    exact s.wellFormed
  · intro h
    obtain ⟨s, hs, -⟩ := ofBytes_of_isEncoding name (Utf8.mem_kstar_encoding_iff.1 h)
    exact ⟨s, hs⟩

/-- **Sources have exactly the well-formed texts.** A text that is made of the forms of numbers, without overlong forms,
surrogates and numbers above U+10FFFF, is the text of a source with the given name. About any other text it is said
where it stops being well formed: this is the length of its longest well-formed beginning, less than its own length, and
where a search from character to character ends that takes U+FFFD for a bad byte only if it has one byte. An encoded
U+FFFD does no harm anywhere. -/
theorem ofBytes_checks (name : String) (text : Bytes) :
    ((∃ s, ofBytes name text = .ok s) ↔ text ∈ Utf8.encoding∗) ∧
    (∀ s, ofBytes name text = .ok s → s.name = name ∧ s.text = text) ∧
    (text ∉ Utf8.encoding∗ → ∃ e, ofBytes name text = .error e ∧ e.name = name ∧ e.offset < text.length ∧
      Longest Utf8.encoding∗ text (text.take e.offset) ∧ e.offset = Utf8.firstInvalid text) ∧
    ∀ front back, text = front ++ utf8 "\uFFFD" ++ back → front ∈ Utf8.encoding∗ →
      ((∃ s, ofBytes name text = .ok s) ↔ back ∈ Utf8.encoding∗) := by
  refine ⟨exists_ofBytes_iff, fun s hs => eq_of_ofBytes hs, ?_, ?_⟩
  · intro h
    have hbad : Utf8.badOffset? text ≠ none := by
      rwa [Utf8.mem_kstar_encoding_iff, ← Utf8.badOffset?_eq_none_iff] at h
    obtain ⟨n, hn⟩ := Option.ne_none_iff_exists'.1 hbad
    obtain ⟨hlt, hlongest⟩ := Utf8.longest_of_badOffset? hn
    exact ⟨⟨name, n⟩, ofBytes_of_badOffset? name hn, rfl, hlt, hlongest, (Utf8.firstInvalid_of_badOffset? hn).symm⟩
  · rintro front back rfl hfront
    rw [exists_ofBytes_iff, Utf8.mem_kstar_encoding_iff, Utf8.mem_kstar_encoding_iff]
    have hmarked : Utf8.IsEncoding (front ++ utf8 "\uFFFD") :=
      (Utf8.mem_kstar_encoding_iff.1 hfront).append (Utf8.isEncoding_utf8 _)
    exact ⟨fun h => h.of_append hmarked, hmarked.append⟩

/-- A text that ends in the middle of a character, with a U+FFFD before. -/
def truncatedText : Bytes := utf8 "é\uFFFDx" ++ [0xE2, 0x82]

theorem ofBytes_checks_truncated :
    truncatedText ∉ Utf8.encoding∗ ∧
      (∃ e, ofBytes "t" truncatedText = .error e ∧ e.offset = 6 ∧
        Longest Utf8.encoding∗ truncatedText (utf8 "é\uFFFDx") ∧ Utf8.firstInvalid truncatedText = 6) ∧
      utf8 "é" ∈ Utf8.encoding∗ ∧ utf8 "x" ∈ Utf8.encoding∗ ∧
      ∃ s, ofBytes "t" (utf8 "é\uFFFDx") = .ok s ∧ s.name = "t" := by
  have hbad : Utf8.badOffset? truncatedText = some 6 := by decide +kernel
  have hnot : truncatedText ∉ Utf8.encoding∗ := by
    rw [Utf8.mem_kstar_encoding_iff, ← Utf8.badOffset?_eq_none_iff, hbad]
    exact Option.some_ne_none 6
  have hfront : utf8 "é" ∈ Utf8.encoding∗ := Utf8.mem_kstar_encoding_iff.2 (Utf8.isEncoding_utf8 _)
  have hback : utf8 "x" ∈ Utf8.encoding∗ := Utf8.mem_kstar_encoding_iff.2 (Utf8.isEncoding_utf8 _)
  obtain ⟨e, he, -, -, hlongest, hfirst⟩ := (ofBytes_checks "t" truncatedText).2.2.1 hnot
  obtain rfl : e = ⟨"t", 6⟩ := Except.error.inj (he.symm.trans (ofBytes_of_badOffset? "t" hbad))
  obtain ⟨-, hnames, -, hmarked⟩ := ofBytes_checks "t" (utf8 "é\uFFFDx")
  obtain ⟨s, hs⟩ := (hmarked (utf8 "é") (utf8 "x") rfl hfront).2 hback
  exact ⟨hnot, ⟨_, he, rfl, hlongest, hfirst.symm⟩, hfront, hback, s, hs, (hnames s hs).1⟩

end Source

end SmallJava
