import SmallJava.Location
import SmallJava.Search
import SmallJava.Text.Utf8

/-!
# Sources

A `Source` is a complete text that is known to be well-formed UTF-8, with a display name and an index of
the offsets at which its lines start.

* `Source.ofBytes` — accepts exactly the well-formed texts, and says where another one goes wrong;
* `Source.read` — the same for a text whose reading may have failed;
* `Source.lineCol`, `Source.location` — from offsets to lines and columns;
* `Source.slice?`, `Source.line` — the text of a span and of a line.
-/

namespace SmallJava

/-- A text that is not UTF-8: the display name of the source, and the offset of the first bad byte. -/
structure EncodingError where
  name : String
  offset : Nat
deriving DecidableEq, Repr

/-- What is said about a text that is not UTF-8; an empty name is left out. -/
def EncodingError.message (e : EncodingError) : String :=
  (if e.name = "" then "" else e.name ++ ": ") ++ "invalid UTF-8 at offset " ++ toString e.offset

/-- Why no source could be made. -/
inductive SourceError where
  /-- The text could not be read to its end. -/
  | unreadable (cause : String)
  /-- The text is not UTF-8. -/
  | encoding (error : EncodingError)
deriving DecidableEq, Repr

/-- What is said when no source could be made. -/
def SourceError.message : SourceError → String
  | .unreadable cause => "read source: " ++ cause
  | .encoding error => error.message

/-- The offsets just past the line breaks of `text`, which starts at `offset`. -/
def lineStartsFrom (offset : Nat) : Bytes → List Nat
  | [] => []
  | b :: r =>
    if b = byte '\n' then (offset + 1) :: lineStartsFrom (offset + 1) r
    else lineStartsFrom (offset + 1) r

/-- The offsets at which the lines of `text` start. There is always a first line. -/
def lineStarts (text : Bytes) : List Nat := 0 :: lineStartsFrom 0 text

/-- A named text in well-formed UTF-8, with an index of its lines. -/
structure Source where
  name : String
  text : Bytes
  wellFormed : Utf8.badOffset? text = none
  starts : Array Nat := (lineStarts text).toArray
  starts_eq : starts = (lineStarts text).toArray := by rfl

namespace Source

/-- The source with the given text, if that is well-formed UTF-8. -/
def ofBytes (name : String) (text : Bytes) : Except EncodingError Source :=
  match h : Utf8.badOffset? text with
  | none => .ok { name := name, text := text, wellFormed := h }
  | some offset => .error ⟨name, offset⟩

/-- The source with the text that was read, if it could be read. -/
def read (name : String) (input : Except String Bytes) : Except SourceError Source :=
  match input with
  | .error cause => .error (.unreadable cause)
  | .ok text => (ofBytes name text).mapError .encoding

/-- The number of bytes. -/
def size (s : Source) : Nat := s.text.length

/-- The number of lines. -/
def lineCount (s : Source) : Nat := s.starts.size

/-- The byte at an offset, or zero outside the text. -/
def byteAt (s : Source) (offset : Int) : UInt8 :=
  if offset < 0 then 0 else s.text.getD offset.toNat 0

/-- The text of a span, if the span is one of this text. -/
def slice? (s : Source) (span : Span) : Option Bytes :=
  if 0 ≤ span.start ∧ span.start ≤ span.stop ∧ span.stop ≤ s.size then
    some ((s.text.drop span.start.toNat).take (span.stop - span.start).toNat)
  else none

/-- The line and column of an offset: the last line that starts at or before it, and the distance from
that start. An offset before the text is on the first line. -/
def lineCol (s : Source) (offset : Int) : LineCol :=
  let after := bisect (fun i => offset < (s.starts.getD i 0 : Nat)) 0 s.starts.size
  let i := after - 1
  { line := i + 1, column := offset - (s.starts.getD i 0 : Nat) + 1 }

/-- The location of a span. -/
def location (s : Source) (span : Span) : Location :=
  { span := span, first := s.lineCol span.start, last := s.lineCol span.stop }

/-- The location of the whole text. -/
def extent (s : Source) : Location := s.location ⟨0, s.size⟩

/-- The text of a line, counted from one, without its line break (LF, or CR LF); empty if there is no such
line. -/
def line (s : Source) (n : Int) : Bytes :=
  if n < 1 ∨ s.lineCount < n then [] else
    let i := n.toNat - 1
    let start := s.starts.getD i 0
    let stop := if i + 1 < s.lineCount then s.starts.getD (i + 1) 0 - 1 else s.size
    let text := (s.text.drop start).take (stop - start)
    if text.getLast? = some (byte '\r') then text.dropLast else text

end Source

end SmallJava
