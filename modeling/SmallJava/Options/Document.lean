import SmallJava.Text.Utf8

/-!
# Options documents

An options document is a JSON value in which comments may stand wherever blanks may, and a comma may follow
the last member of an object or the last element of an array.

A text is cut into marks, and a machine with a stack of open arrays and objects reads the marks one by one.

* `Document.ofBytes?` — the value of a text, if the text is one document.
-/

namespace SmallJava

/-- A JSON value. A number is kept as it is written. -/
inductive Document where
  | null
  | bool (b : Bool)
  | number (text : Bytes)
  | string (s : String)
  | array (elements : List Document)
  | object (members : List (String × Document))

namespace Document

/-- The symbols that a document is made of. -/
inductive Mark where
  | openObject | closeObject | openArray | closeArray | colon | comma
  /-- A value without parts. -/
  | scalar (v : Document)

/-! ## Strings -/

/-- The value of a hexadecimal digit. -/
def hexDigit? (b : UInt8) : Option Nat :=
  if byte '0' ≤ b ∧ b ≤ byte '9' then some (b.toNat - 48)
  else if byte 'a' ≤ b ∧ b ≤ byte 'f' then some (b.toNat - 87)
  else if byte 'A' ≤ b ∧ b ≤ byte 'F' then some (b.toNat - 55)
  else none

/-- The number that the first four bytes spell in hexadecimal. -/
def hexUnit? : Bytes → Option Nat
  | a :: b :: c :: d :: _ => do
    return (((← hexDigit? a) * 16 + (← hexDigit? b)) * 16 + (← hexDigit? c)) * 16 + (← hexDigit? d)
  | _ => none

/-- The number that a Unicode escape spells. -/
def unicodeEscape? : Bytes → Option Nat
  | a :: b :: r => if a = byte '\\' ∧ b = byte 'u' then hexUnit? r else none
  | _ => none

/-- The character of a one-letter escape. -/
def letterEscape? (b : UInt8) : Option Char :=
  [(byte '"', '"'), (byte '\\', '\\'), (byte '/', '/'), (byte 'b', '\x08'), (byte 'f', '\x0c'),
   (byte 'n', '\n'), (byte 'r', '\r'), (byte 't', '\t')].lookup b

/-- How many bytes of a string are left after its opening quote, with the closing one. A control character or an
escape that is none makes the string malformed. -/
def stringSize? : Bytes → Option Nat
  | [] => none
  | b :: r =>
    if b = byte '"' then some 1
    else if b < 0x20 then none
    else if b = byte '\\' then
      match r with
      | [] => none
      | c :: r' =>
        if (letterEscape? c).isSome ∨ (c = byte 'u' ∧ (hexUnit? r').isSome) then
          (stringSize? r').map (· + 2)
        else none
    else (stringSize? r).map (· + 1)

/-- The character of the escape that follows a backslash, and how many bytes it takes. Two escaped surrogates that
belong together are one character; a surrogate on its own is U+FFFD. -/
def escaped (text : Bytes) : Char × Nat :=
  match text with
  | [] => ('\uFFFD', 0)
  | b :: r =>
    match letterEscape? b with
    | some c => (c, 1)
    | none =>
      let unit := (hexUnit? r).getD 0xFFFD
      if 0xD800 ≤ unit ∧ unit < 0xE000 then
        match unicodeEscape? (r.drop 4) with
        | some low =>
          if unit < 0xDC00 ∧ 0xDC00 ≤ low ∧ low < 0xE000 then
            (Char.ofNat (0x10000 + (unit - 0xD800) * 0x400 + (low - 0xDC00)), 11)
          else ('\uFFFD', 5)
        | none => ('\uFFFD', 5)
      else (Char.ofNat unit, 5)

/-- The characters of the inside of a string; `skip` bytes belong to a character already read. A byte that starts no
character counts as U+FFFD. -/
def unescapeFrom : Nat → Bytes → List Char
  | _, [] => []
  | skip + 1, _ :: r => unescapeFrom skip r
  | 0, b :: r =>
    if b = byte '\\' then
      let (c, size) := escaped r
      c :: unescapeFrom size r
    else
      match Utf8.first? (b :: r) with
      | some c => c :: unescapeFrom (c.utf8Size - 1) r
      | none => '\uFFFD' :: unescapeFrom 0 r

/-! ## Numbers, words and comments -/

/-- The number of digits at the start of a text. -/
def digitRun (text : Bytes) : Nat := (text.takeWhile fun b => byte '0' ≤ b && b ≤ byte '9').length

/-- The size of the digits before the point: a zero, or digits that do not start with one. -/
def wholeSize (text : Bytes) : Nat :=
  if text.head? = some (byte '0') then 1 else digitRun text

/-- The size of a point and digits. -/
def fractionSize (text : Bytes) : Nat :=
  match text with
  | b :: r => if b = byte '.' ∧ 0 < digitRun r then 1 + digitRun r else 0
  | [] => 0

/-- The size of an exponent. -/
def exponentSize (text : Bytes) : Nat :=
  match text with
  | b :: r =>
    let sign := if r.head? = some (byte '+') ∨ r.head? = some (byte '-') then 1 else 0
    let digits := digitRun (r.drop sign)
    if (b = byte 'e' ∨ b = byte 'E') ∧ 0 < digits then 1 + sign + digits else 0
  | [] => 0

/-- The size of the number at the start of a text; zero if there is none. -/
def numberSize (text : Bytes) : Nat :=
  let sign := if text.head? = some (byte '-') then 1 else 0
  let whole := wholeSize (text.drop sign)
  if whole = 0 then 0
  else
    let size := sign + whole
    let size := size + fractionSize (text.drop size)
    size + exponentSize (text.drop size)

/-- The words, with their values. -/
def words : List (Bytes × Document) :=
  [(utf8 "null", .null), (utf8 "true", .bool true), (utf8 "false", .bool false)]

/-- How many bytes come before `ending`, and with it. -/
def sizeThrough? (ending : Bytes) : Bytes → Option Nat
  | [] => none
  | b :: r =>
    if ending.isPrefixOf (b :: r) then some ending.length else (sizeThrough? ending r).map (· + 1)

/-- The size of the comment at the start of a text. It has to have an end, which for a line comment is the line
break, and to be UTF-8. -/
def commentSize? (text : Bytes) : Option Nat := do
  let ending ←
    if (utf8 "//").isPrefixOf text then some (utf8 "\n")
    else if (utf8 "/*").isPrefixOf text then some (utf8 "*/")
    else none
  let size := 2 + (← sizeThrough? ending (text.drop 2))
  if (Utf8.badOffset? (text.take size)).isNone then some size else none

/-! ## Marks -/

/-- The punctuation of a document. -/
def punctuation? (b : UInt8) : Option Mark :=
  if b = byte '\x7b' then some .openObject
  else if b = byte '\x7d' then some .closeObject
  else if b = byte '[' then some .openArray
  else if b = byte ']' then some .closeArray
  else if b = byte ':' then some .colon
  else if b = byte ',' then some .comma
  else none

/-- Whether a byte is blank. -/
def isSpace (b : UInt8) : Bool := b == byte ' ' || b == byte '\t' || b == byte '\r' || b == byte '\n'

/-- What the text `b :: r` starts with: how many bytes, and the mark they are if they are one. -/
def markAt? (b : UInt8) (r : Bytes) : Option (Nat × Option Mark) :=
  if isSpace b then some (1, none)
  else if b = byte '/' then (commentSize? (b :: r)).map fun size => (size, none)
  else if b = byte '"' then
    (stringSize? r).map fun size =>
      (1 + size, some (.scalar (.string (String.ofList (unescapeFrom 0 (r.take (size - 1)))))))
  else if 0 < numberSize (b :: r) then
    let size := numberSize (b :: r)
    some (size, some (.scalar (.number ((b :: r).take size))))
  else
    match words.find? fun w => w.1.isPrefixOf (b :: r) with
    | some (word, v) => some (word.length, some (.scalar v))
    | none => (punctuation? b).map fun m => (1, some m)

/-- The marks of a text; its first `skip` bytes belong to a mark already made. -/
def marksFrom? : Nat → Bytes → Option (List Mark)
  | _, [] => some []
  | skip + 1, _ :: r => marksFrom? skip r
  | 0, b :: r => do
    let (size, m) ← markAt? b r
    return m.toList ++ (← marksFrom? (size - 1) r)

/-! ## Structure -/

/-- An array or object that is not closed yet. -/
inductive Frame where
  | array (elements : List Document)
  | object (members : List (String × Document))
  /-- An object, and the name of a member whose value is to come. -/
  | member (members : List (String × Document)) (name : String)

/-- What may come next. -/
inductive Expect where
  | value
  /-- An element of an array, or its end. -/
  | element
  /-- The name of a member of an object, or its end. -/
  | name
  | colon
  /-- A comma, or the end of an array or object. -/
  | separator
  /-- Nothing: the document is complete. -/
  | nothing (v : Document)

/-- Puts a value where it belongs. -/
def place (v : Document) : List Frame → Option (Expect × List Frame)
  | [] => some (.nothing v, [])
  | .array es :: fs => some (.separator, .array (es ++ [v]) :: fs)
  | .member ms name :: fs => some (.separator, .object (ms ++ [(name, v)]) :: fs)
  | .object _ :: _ => none

/-- Reads a mark. -/
def step : Expect × List Frame → Mark → Option (Expect × List Frame)
  | (.value, fs), .scalar v => place v fs
  | (.value, fs), .openArray => some (.element, .array [] :: fs)
  | (.value, fs), .openObject => some (.name, .object [] :: fs)
  | (.element, .array es :: fs), .closeArray => place (.array es) fs
  | (.element, fs), .scalar v => place v fs
  | (.element, fs), .openArray => some (.element, .array [] :: fs)
  | (.element, fs), .openObject => some (.name, .object [] :: fs)
  | (.name, .object ms :: fs), .scalar (.string s) => some (.colon, .member ms s :: fs)
  | (.name, .object ms :: fs), .closeObject => place (.object ms) fs
  | (.colon, fs), .colon => some (.value, fs)
  | (.separator, .array es :: fs), .comma => some (.element, .array es :: fs)
  | (.separator, .array es :: fs), .closeArray => place (.array es) fs
  | (.separator, .object ms :: fs), .comma => some (.name, .object ms :: fs)
  | (.separator, .object ms :: fs), .closeObject => place (.object ms) fs
  | _, _ => none

/-- The value of a text, if the text is one document. -/
def ofBytes? (text : Bytes) : Option Document := do
  let marks ← marksFrom? 0 text
  match ← marks.foldlM step (.value, []) with
  | (.nothing v, _) => some v
  | _ => none

end Document

end SmallJava
