/-!
# Byte strings

Source text is a sequence of bytes: offsets, columns and the length of a preview all count bytes,
and a preview may end in the middle of a character. Everything that quotes source text, messages
included, is therefore a byte string.

* `Bytes` — a list of bytes;
* `utf8` — the bytes of a string constant or of a name.
-/

namespace SmallJava

/-- A byte string. -/
abbrev Bytes := List UInt8

/-- The UTF-8 encoding of `s`. -/
def utf8 (s : String) : Bytes := s.toList.flatMap String.utf8EncodeChar

@[simp] theorem utf8_empty : utf8 "" = [] := rfl

@[simp] theorem utf8_append (s t : String) : utf8 (s ++ t) = utf8 s ++ utf8 t := by
  simp [utf8]

/-- The byte of an ASCII character. -/
def byte (c : Char) : UInt8 := c.toNat.toUInt8

namespace Bytes

/-- The byte strings in `parts`, one after the other, with `sep` between neighbours. -/
def join (sep : Bytes) : List Bytes → Bytes
  | [] => []
  | [x] => x
  | x :: y :: r => x ++ sep ++ join sep (y :: r)

/-- `count` copies of `unit`; none if `count` is not positive. -/
def copies (count : Int) (unit : Bytes) : Bytes := (List.replicate count.toNat unit).flatten

end Bytes

end SmallJava
