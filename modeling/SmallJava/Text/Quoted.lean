import SmallJava.Text.Printable

/-!
# Quoted characters and strings in messages

A message that names a character or a string of the input shows it between quotes, with everything that
a terminal would not show replaced by an escape:

* the delimiter and the backslash are preceded by a backslash;
* printable characters stand for themselves;
* seven control characters have a letter escape, and the other ASCII control characters a two-digit one;
* all else is written as its code point, in four or eight digits.
-/

namespace SmallJava.Quoted

/-- `n` in lower-case hexadecimal, padded with zeros to `width` digits. -/
def hex (width n : Nat) : String :=
  let digits := Nat.toDigits 16 n
  String.ofList (List.replicate (width - digits.length) '0' ++ digits)

/-- The control characters that are escaped by a letter. -/
def letterEscapes : List (Char × Char) :=
  [('\x07', 'a'), ('\x08', 'b'), ('\x0c', 'f'), ('\n', 'n'), ('\r', 'r'), ('\t', 't'), ('\x0b', 'v')]

/-- How `c` is written between two `delimiter`s. -/
def escape (delimiter c : Char) : String :=
  if c = delimiter ∨ c = '\\' then String.ofList ['\\', c]
  else if Printable.isPrintable c then c.toString
  else match letterEscapes.lookup c with
    | some letter => String.ofList ['\\', letter]
    | none =>
      if c.toNat < 0x20 ∨ c.toNat = 0x7F then "\\x" ++ hex 2 c.toNat
      else if c.toNat < 0x10000 then "\\u" ++ hex 4 c.toNat
      else "\\U" ++ hex 8 c.toNat

/-- A character between single quotes. -/
def char (c : Char) : String := "'" ++ escape '\'' c ++ "'"

/-- A string between double quotes. -/
def string (s : String) : String := "\"" ++ String.join (s.toList.map (escape '"')) ++ "\""

end SmallJava.Quoted
