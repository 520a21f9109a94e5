/-!
# Options of the parser

How a text is called in diagnostics, how far the parser goes, and whether comments are kept.
-/

namespace SmallJava

/-- The nesting limit if none is given. -/
def defaultMaxDepth : Nat := 256

/-- Settings of the parser. The default value has no name, the default nesting limit, no limit on errors, and
drops comments. -/
structure Options where
  /-- The display name of the text. -/
  name : String := ""
  /-- How deeply constructs may be nested; a number that is not positive stands for the default. -/
  maxDepth : Int := 0
  /-- How many errors are reported before parsing stops; a number that is not positive sets no limit. -/
  maxErrors : Int := 0
  /-- Whether comments are kept. -/
  keepComments : Bool := false
deriving DecidableEq, Repr, Inhabited

namespace Options

/-- The nesting limit in force. -/
def depthLimit (o : Options) : Nat := if o.maxDepth ≤ 0 then defaultMaxDepth else o.maxDepth.toNat

/-- The limit on errors in force. -/
def errorLimit? (o : Options) : Option Nat := if o.maxErrors ≤ 0 then none else some o.maxErrors.toNat

theorem depthLimit_pos (o : Options) : 0 < o.depthLimit := by
  unfold depthLimit defaultMaxDepth
  split <;> omega

end Options

end SmallJava
