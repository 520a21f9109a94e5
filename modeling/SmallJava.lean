import SmallJava.Format
import SmallJava.Lexical.Stream
import SmallJava.Options.Load
import SmallJava.Parse
import SmallJava.Proofs.Climbing
import SmallJava.Proofs.Conditions
import SmallJava.Proofs.Deepening
import SmallJava.Proofs.Depth
import SmallJava.Proofs.Diagnostics
import SmallJava.Proofs.Inverse
import SmallJava.Proofs.Isolation
import SmallJava.Proofs.Language
import SmallJava.Proofs.Layout
import SmallJava.Proofs.Lexical.Longest
import SmallJava.Proofs.Lexical.Spacing
import SmallJava.Proofs.Limits
import SmallJava.Proofs.Merging
import SmallJava.Proofs.Navigation
import SmallJava.Proofs.Progress
import SmallJava.Proofs.Quoting
import SmallJava.Proofs.Reporting
import SmallJava.Proofs.Resuming
import SmallJava.Proofs.RoundTrip
import SmallJava.Proofs.Shape
import SmallJava.Proofs.Spans
import SmallJava.Proofs.Stopping
import SmallJava.Proofs.Structural
import SmallJava.Proofs.Text.Positions
import SmallJava.Proofs.Text.WellFormed
import SmallJava.Proofs.Tiling
import SmallJava.Proofs.Traversal
import SmallJava.Proofs.Unquoting
import SmallJava.Proofs.Verbatim
import SmallJava.Tree.Literal
import SmallJava.Tree.Walk
