import SmallJava.Text.Bytes

/-!
# Reading decimal numbers

* `Decimal.integer?` — a signed integer that fits into 64 bits;
* `Decimal.float?` — the nearest binary64 number to a decimal, if that is not too large, or one of the words for
  infinity and for not-a-number.
-/

namespace SmallJava.Decimal

/-- The value of a decimal digit. -/
def digit? (b : UInt8) : Option Nat :=
  if byte '0' ≤ b ∧ b ≤ byte '9' then some (b.toNat - (byte '0').toNat) else none

/-- The number that digits spell after the digits of `n`. -/
def digitsFrom (n : Nat) : Bytes → Option Nat
  | [] => some n
  | b :: r => (digit? b).bind fun d => digitsFrom (n * 10 + d) r

/-- The number that a text of one or more digits spells. -/
def natural? : Bytes → Option Nat
  | [] => none
  | text => digitsFrom 0 text

/-- Whether a text starts with a minus sign, and what follows a sign. -/
def splitSign : Bytes → Bool × Bytes
  | b :: r =>
    if b = byte '-' then (true, r) else if b = byte '+' then (false, r) else (false, b :: r)
  | [] => (false, [])

/-- The integer that a text of digits spells, perhaps after a sign, if it fits into 64 bits. -/
def integer? (text : Bytes) : Option Int := do
  let (negative, digits) := splitSign text
  let n ← natural? digits
  let v : Int := if negative then -n else n
  if -0x8000000000000000 ≤ v ∧ v < 0x8000000000000000 then some v else none

/-- A decimal number: `significand * 10 ^ exponent`. -/
structure Scientific where
  significand : Nat
  exponent : Int
deriving DecidableEq, Repr

/-- The exponent that a text ends in: nothing, or a letter and an integer. -/
def exponent? : Bytes → Option Int
  | [] => some 0
  | b :: r =>
    if b = byte 'e' ∨ b = byte 'E' then
      let (negative, digits) := splitSign r
      (natural? digits).map fun n => if negative then -n else n
    else none

/-- The number that a text without a sign spells: digits, perhaps with a point among them, before them or behind
them, and perhaps an exponent. -/
def scientific? (text : Bytes) : Option Scientific := do
  let isDigit (b : UInt8) : Bool := (digit? b).isSome
  let whole := text.takeWhile isDigit
  let rest := text.drop whole.length
  let fraction := if rest.head? = some (byte '.') then rest.tail.takeWhile isDigit else []
  let rest := if rest.head? = some (byte '.') then rest.tail.drop fraction.length else rest
  let significand ← natural? (whole ++ fraction)
  let exponent ← exponent? rest
  return { significand, exponent := exponent - fraction.length }

/-- The binary64 number nearest to a decimal, if there is one below infinity. The number of digits before the point
settles all decimals far out of range. -/
def Scientific.toFloat? (s : Scientific) : Option Float :=
  let magnitude := (Nat.toDigits 10 s.significand).length + s.exponent
  if s.significand = 0 ∨ magnitude < -400 then some 0
  else if 400 < magnitude then none
  else
    let x := Float.ofScientific s.significand (s.exponent < 0) s.exponent.natAbs
    if x.isInf then none else some x

/-- A text in lower case. -/
def lower (text : Bytes) : Bytes :=
  text.map fun b => if byte 'A' ≤ b ∧ b ≤ byte 'Z' then b + 32 else b

/-- The binary64 number that a text spells. -/
def float? (text : Bytes) : Option Float := do
  if lower text = utf8 "nan" then return 0.0 / 0.0
  let (negative, body) := splitSign text
  let x ←
    if lower body = utf8 "inf" ∨ lower body = utf8 "infinity" then some (1.0 / 0.0)
    else (scientific? body).bind Scientific.toFloat?
  return if negative then -x else x

end SmallJava.Decimal
