import SmallJava.Options
import SmallJava.Options.Document
import SmallJava.Text.Decimal

/-!
# Options from a document

`Options.load` reads options from a document. A document is an object with the fields of `Options`, whose names
are taken without regard to case, or `null`, which sets nothing. A field that is `null` is left as it is, and of
a field that is given more than once the last value counts.
-/

namespace SmallJava

/-- Why no options could be read. -/
inductive OptionsError where
  /-- The document could not be read to its end. -/
  | unreadable (cause : String)
  /-- The text is no document. -/
  | malformed
  /-- The document does not describe options. -/
  | mismatched
  /-- A limit is negative. -/
  | negativeLimit
deriving DecidableEq, Repr

namespace OptionsError

/-- What was being done when it went wrong. -/
def stage : OptionsError → String
  | .unreadable _ => "read options"
  | .malformed => "parse options"
  | .mismatched => "decode options"
  | .negativeLimit => "invalid options"

/-- What there is to say beyond the stage. -/
def detail? : OptionsError → Option String
  | .unreadable cause => some cause
  | .negativeLimit => some "limits must not be negative"
  | .malformed | .mismatched => none

/-- The whole message, if there is more to say than the stage. -/
def message? (e : OptionsError) : Option String := e.detail?.map fun d => e.stage ++ ": " ++ d

end OptionsError

/-- A character without regard to case. Of the characters outside ASCII two are the same as an ASCII letter: the
Kelvin sign and the long s. -/
def foldCase (c : Char) : Char :=
  if c = '\u212A' then 'k' else if c = '\u017F' then 's' else c.toLower

/-- Whether a field is called `name`, without regard to case. -/
def namesField (field name : String) : Bool := field.toList.map foldCase == name.toList.map foldCase

namespace Options

/-- Sets one field from a document. -/
def setField (o : Options) (field : String) (v : Document) : Except OptionsError Options :=
  let limit (text : Bytes) (set : Int → Options) : Except OptionsError Options :=
    match Decimal.integer? text with
    | some n => .ok (set n)
    | none => .error .mismatched
  if namesField field "name" then
    match v with
    | .string s => .ok { o with name := s }
    | .null => .ok o
    | _ => .error .mismatched
  else if namesField field "maxDepth" then
    match v with
    | .number text => limit text fun n => { o with maxDepth := n }
    | .null => .ok o
    | _ => .error .mismatched
  else if namesField field "maxErrors" then
    match v with
    | .number text => limit text fun n => { o with maxErrors := n }
    | .null => .ok o
    | _ => .error .mismatched
  else if namesField field "keepComments" then
    match v with
    | .bool b => .ok { o with keepComments := b }
    | .null => .ok o
    | _ => .error .mismatched
  else .error .mismatched

/-- The options that a document describes. -/
def ofDocument : Document → Except OptionsError Options
  | .null => .ok {}
  | .object members => members.foldlM (fun o (field, v) => o.setField field v) {}
  | _ => .error .mismatched

/-- Reads options from a document that was read. -/
def load (input : Except String Bytes) : Except OptionsError Options := do
  let text ← input.mapError .unreadable
  let some v := Document.ofBytes? text | throw .malformed
  let o ← ofDocument v
  if o.maxDepth < 0 ∨ o.maxErrors < 0 then throw .negativeLimit
  return o

end Options

end SmallJava
