import Cadence.Binary64.Layout
import Cadence.Binary64.Numeral
import Cadence.Bound.Binding
import Cadence.Builtin.Registries
import Cadence.Main
import Cadence.Program.Parser
import Cadence.Program.Printer
import Cadence.Proofs.Binary64.Decimal
import Cadence.Proofs.Binary64.Overflow
import Cadence.Proofs.Binary64.Texts
import Cadence.Proofs.Binary64.Written
import Cadence.Proofs.Bound.Asking
import Cadence.Proofs.Bound.Closure
import Cadence.Proofs.Bound.Confinement
import Cadence.Proofs.Bound.Host
import Cadence.Proofs.Bound.Invocations
import Cadence.Proofs.Bound.Obliviousness
import Cadence.Proofs.Bound.Sites
import Cadence.Proofs.Bound.Stages
import Cadence.Proofs.Bound.Tree
import Cadence.Proofs.Program.Agreement
import Cadence.Proofs.Program.Arguments
import Cadence.Proofs.Program.Canonical
import Cadence.Proofs.Program.Completeness
import Cadence.Proofs.Program.Concatenation
import Cadence.Proofs.Program.Grammar
import Cadence.Proofs.Program.Keys
import Cadence.Proofs.Program.Maps
import Cadence.Proofs.Program.Productions
import Cadence.Proofs.Program.Proper
import Cadence.Proofs.Program.RoundTrip
import Cadence.Proofs.Program.Scanning
import Cadence.Proofs.Program.Soundness
import Cadence.Proofs.Program.Steadiness
import Cadence.Proofs.Program.Tokens
import Cadence.Proofs.Program.Tracking
import Cadence.Proofs.Run.Counts
import Cadence.Proofs.Run.Flattening
import Cadence.Proofs.Run.Forecast
import Cadence.Proofs.Run.Intervals
import Cadence.Proofs.Run.Isolation
import Cadence.Proofs.Run.Lines
import Cadence.Proofs.Run.Merging
import Cadence.Proofs.Run.Rotation
import Cadence.Proofs.Run.Rounds
import Cadence.Proofs.Run.Searching
import Cadence.Proofs.Run.Session
import Cadence.Proofs.Run.Timekeeping
import Cadence.Proofs.Run.Timeline
import Cadence.Run.Ensemble
import Cadence.Run.Solo
import Cadence.Text.Place
import Cadence.Text.Quoted
import Cadence.Value
import Cadence.Proofs.Binary64.Whole
import Cadence.Proofs.Bound.Passes
import Cadence.Proofs.Json.Atoms
import Cadence.Proofs.Json.Layouts
import Cadence.Proofs.Cli.Sessions
import Cadence.Proofs.Program.Trees
import Cadence.Proofs.Program.Expressions
import Cadence.Proofs.Program.Folding
import Cadence.Proofs.Run.Limits
import Cadence.Proofs.Bound.Answers
import Cadence.Proofs.Program.NumberKeys
import Cadence.Proofs.Program.Depth
import Cadence.Proofs.Builtin.Draws
import Cadence.Proofs.Builtin.Extremes
import Cadence.Proofs.Builtin.Sums
import Cadence.Proofs.Bound.Growth
import Cadence.Proofs.Bound.Mirror
import Cadence.Proofs.Run.Completions
import Cadence.Proofs.Run.Tallies
import Cadence.Proofs.Run.Succession
import Cadence.Proofs.Text.Places
import Cadence.Proofs.Run.Traces
import Cadence.Proofs.Cli.Tracing
import Cadence.Proofs.Run.Frames
import Cadence.Proofs.Run.Scaling
