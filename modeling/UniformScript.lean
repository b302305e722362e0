import UniformScript.Source.Excerpt
import UniformScript.Text.Blank
import UniformScript.Decimal.Layout
import UniformScript.Token.Scan
import UniformScript.Report.Terminal
import UniformScript.Syntax.Canonical
import UniformScript.Syntax.Grammar
import UniformScript.Value.Operation
import UniformScript.Arena.Collect
import UniformScript.Eval.Evaluate
import UniformScript.Session
import UniformScript.Main
import UniformScript.Proofs.Syntax.Generation
import UniformScript.Proofs.Syntax.Depth
import UniformScript.Proofs.Syntax.Reading
import UniformScript.Proofs.Syntax.Unspanned
import UniformScript.Proofs.Token.Scanning
import UniformScript.Proofs.Token.MaximalMunch
import UniformScript.Proofs.Syntax.WellFormed
import UniformScript.Proofs.Syntax.CanonicalTokens
import UniformScript.Proofs.Syntax.RoundTrip
import UniformScript.Proofs.Syntax.Operators
import UniformScript.Proofs.Arena.Frames
import UniformScript.Proofs.Arena.Sound
import UniformScript.Proofs.Arena.Unreferred
import UniformScript.Proofs.Arena.Reachability
import UniformScript.Proofs.Arena.Collection
import UniformScript.Proofs.Arena.History
import UniformScript.Proofs.Eval.Task
import UniformScript.Proofs.Eval.Safety
import UniformScript.Proofs.Arena.Mirror
import UniformScript.Proofs.Eval.Depth
import UniformScript.Proofs.Eval.Mirrored
import UniformScript.Proofs.Session.Client
import UniformScript.Proofs.Session.Reclaiming
import UniformScript.Proofs.Session.Leaks
import UniformScript.Proofs.Eval.Points
import UniformScript.Proofs.Token.LineBreak
import UniformScript.Proofs.Value.MapFunctions
import UniformScript.Proofs.Arena.Unspanned
import UniformScript.Proofs.Eval.Unspanned
import UniformScript.Proofs.Session.Secure
import UniformScript.Proofs.Syntax.Programs
import UniformScript.Proofs.Session.Unspanned
import UniformScript.Proofs.Session.Canonical
import UniformScript.Proofs.Syntax.Rules
import UniformScript.Proofs.Syntax.Taking
import UniformScript.Proofs.Syntax.Joining
import UniformScript.Proofs.Syntax.Accepting
import UniformScript.Proofs.Syntax.Viable
import UniformScript.Proofs.Arena.Effects
import UniformScript.Proofs.Arena.Names
import UniformScript.Proofs.Eval.Calm
import UniformScript.Proofs.Eval.Names
import UniformScript.Proofs.Eval.Sequence
import UniformScript.Proofs.Eval.Counting
import UniformScript.Proofs.Session.Joined
import UniformScript.Proofs.Session.Names
import UniformScript.Proofs.Session.Balanced
import UniformScript.Proofs.Source.Coherent
import UniformScript.Proofs.Source.Carets
import UniformScript.Proofs.Token.Placed
import UniformScript.Proofs.Syntax.Nested
import UniformScript.Proofs.Syntax.Placed
import UniformScript.Proofs.Eval.Drawn
import UniformScript.Proofs.Session.Reported
import UniformScript.Proofs.Eval.Failing
import UniformScript.Proofs.Session.Traceback
import UniformScript.Proofs.Syntax.ErrorPlace
import UniformScript.Proofs.Syntax.Separators
import UniformScript.Proofs.Token.Tiling
import UniformScript.Proofs.Token.Spacing
import UniformScript.Proofs.Arena.Chains
import UniformScript.Proofs.Arena.Books
import UniformScript.Proofs.Arena.Cells
import UniformScript.Proofs.Syntax.Script
import UniformScript.Proofs.Syntax.Descent
