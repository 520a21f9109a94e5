import SmallJava.Text.Bytes

/-!
# Places in a source text

* `Span` — a half-open range of byte offsets;
* `LineCol` — a line and a column, both counted from one, the column in bytes;
* `Location` — a span together with the line and column of its two ends.

Offsets are integers, so that a span that no text has can still be asked about. Positions are written
and compared as signed 64-bit words; `word` is the reduction to such a word, and it changes no number
that is the offset of a byte in an actual text.
-/

namespace SmallJava

/-- The signed 64-bit word congruent to `n`. -/
def word (n : Int) : Int := n.bmod 0x10000000000000000

theorem word_eq_self {n : Int} (lo : -0x8000000000000000 ≤ n) (hi : n < 0x8000000000000000) :
    word n = n := by
  unfold word
  exact Int.bmod_eq_of_le (by omega) (by omega)

/-- The bytes at offsets `start ≤ i < stop`. -/
structure Span where
  start : Int
  stop : Int
deriving DecidableEq, Repr, Inhabited

namespace Span

/-- Whether `t` lies within `s`. -/
def contains (s t : Span) : Bool := s.start ≤ t.start && t.stop ≤ s.stop

/-- Whether `s` and `t` share a byte. -/
def overlaps (s t : Span) : Bool := s.start < t.stop && t.start < s.stop

end Span

/-- A line and a column. -/
structure LineCol where
  line : Int
  column : Int
deriving DecidableEq, Repr, Inhabited

/-- The form `line:column`. -/
def LineCol.text (p : LineCol) : String := toString (word p.line) ++ ":" ++ toString (word p.column)

/-- A range of source text: its offsets, the position of its first byte and the position just past its
last byte. The default value, all zero, is the location of nothing. -/
structure Location where
  span : Span
  first : LineCol
  last : LineCol
deriving DecidableEq, Repr, Inhabited

namespace Location

/-- Whether the location is in an actual source: lines are counted from one. -/
def isValid (l : Location) : Bool := 0 < l.first.line

/-- From the start of `a` to the end of `b`. -/
def through (a b : Location) : Location :=
  { span := ⟨a.span.start, b.span.stop⟩, first := a.first, last := b.last }

/-- The empty location at the start of `l`. -/
def atStart (l : Location) : Location :=
  { span := ⟨l.span.start, l.span.start⟩, first := l.first, last := l.first }

/-- The form `line:column-line:column`. -/
def text (l : Location) : String := l.first.text ++ "-" ++ l.last.text

@[simp] theorem through_start (a b : Location) : (a.through b).span.start = a.span.start := rfl
@[simp] theorem through_stop (a b : Location) : (a.through b).span.stop = b.span.stop := rfl
@[simp] theorem through_first (a b : Location) : (a.through b).first = a.first := rfl
@[simp] theorem through_last (a b : Location) : (a.through b).last = b.last := rfl

/-- Extending twice is extending to the last end. -/
@[simp] theorem through_through (a b c : Location) : (a.through b).through c = a.through c := rfl

/-- A location reaches from its own start to its own end. -/
@[simp] theorem through_self (a : Location) : a.through a = a := rfl

end Location

end SmallJava
