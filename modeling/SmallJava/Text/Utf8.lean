import SmallJava.Text.Bytes

/-!
# Well-formed UTF-8

* `Utf8.first?` — the character whose encoding starts a byte string;
* `Utf8.badOffset?` — where a byte string stops being a sequence of encoded characters.

A character is recognised by a guess that is then checked: the code point is read off the leading bits
of the first byte and the low bits of those after it, and the guess stands only if its encoding is what
the text starts with. Overlong forms, surrogates, code points above U+10FFFF and truncated forms all
fail that one check.
-/

namespace SmallJava.Utf8

/-- The code point that a first byte `a` followed by `r` would spell, were it well formed. -/
def guess (a : UInt8) (r : Bytes) : Nat :=
  let tail (i : Nat) : Nat := (r.getD i 0).toNat % 64
  if a < 0x80 then a.toNat
  else if a < 0xE0 then a.toNat % 32 * 64 + tail 0
  else if a < 0xF0 then (a.toNat % 16 * 64 + tail 0) * 64 + tail 1
  else ((a.toNat % 8 * 64 + tail 0) * 64 + tail 1) * 64 + tail 2

/-- The character whose encoding `text` starts with, if there is one. -/
def first? : Bytes → Option Char
  | [] => none
  | a :: r =>
    let c := Char.ofNat (guess a r)
    if (String.utf8EncodeChar c).isPrefixOf (a :: r) then some c else none

/-- The scan behind `badOffset?`: `skip` bytes of the current character are still to pass, and `offset`
bytes lie behind. -/
def badOffsetFrom (offset : Nat) : Nat → Bytes → Option Nat
  | _, [] => none
  | skip + 1, _ :: r => badOffsetFrom (offset + 1) skip r
  | 0, a :: r =>
    match first? (a :: r) with
    | none => some offset
    | some c => badOffsetFrom (offset + 1) (c.utf8Size - 1) r

/-- The offset of the first byte that starts no encoded character, or `none` if `text` is well formed. -/
def badOffset? (text : Bytes) : Option Nat := badOffsetFrom 0 0 text

/-- The characters that a byte string spells; a byte that starts no character counts as U+FFFD.
`skip` bytes of the current character are still to pass. -/
def decodeFrom : Nat → Bytes → List Char
  | _, [] => []
  | skip + 1, _ :: r => decodeFrom skip r
  | 0, a :: r =>
    match first? (a :: r) with
    | none => '\uFFFD' :: decodeFrom 0 r
    | some c => c :: decodeFrom (c.utf8Size - 1) r

/-- The string that `text` spells, with U+FFFD for every byte that starts no character. -/
def decode (text : Bytes) : String := String.ofList (decodeFrom 0 text)

theorem isPrefixOf_of_first? {text : Bytes} {c : Char} (h : first? text = some c) :
    (String.utf8EncodeChar c).isPrefixOf text := by
  cases text with
  | nil => simp [first?] at h
  | cons a r =>
    simp only [first?] at h
    split at h
    · next hp => cases h; exact hp
    · simp at h

end SmallJava.Utf8
