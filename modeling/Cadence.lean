import Cadence.Config.Build
import Cadence.Config.Json
import Cadence.Decision.Expect
import Cadence.Duration.Json
import Cadence.Record.Expr
import Cadence.Run.Drive
import Cadence.Run.Task
import Cadence.Proofs.Context
import Cadence.Proofs.Course
import Cadence.Proofs.Run.Operation
import Cadence.Proofs.Run.Progress
import Cadence.Proofs.Run.Polled
import Cadence.Proofs.Run.Projections
import Cadence.Proofs.Run.Ending
import Cadence.Proofs.Run.LastOutcome
import Cadence.Proofs.Run.Folding
import Cadence.Proofs.Run.DryRun
import Cadence.Proofs.Run.Gated
import Cadence.Proofs.Run.Cancellation
import Cadence.Proofs.Run.Lockstep
import Cadence.Proofs.Run.Gating
import Cadence.Proofs.Run.Account
import Cadence.Proofs.Schedule.Always
import Cadence.Proofs.Schedule.Budget
import Cadence.Proofs.Schedule.Lockstep
import Cadence.Proofs.Schedule.Sequence
import Cadence.Proofs.Schedule.Monoid
import Cadence.Proofs.Schedule.Counting
import Cadence.Proofs.Schedule.Completion
import Cadence.Proofs.Schedule.Moves
import Cadence.Proofs.Schedule.SideBySide
import Cadence.Proofs.Expr.Continuations
import Cadence.Proofs.Expr.Names
import Cadence.Proofs.Schedule.Cutoff
import Cadence.Proofs.Config.Completion
import Cadence.Proofs.Config.Bounds
import Cadence.Proofs.Time.Occasion
import Cadence.Proofs.Time.Boundary
import Cadence.Proofs.Schedule.Counted
import Cadence.Proofs.Expr.Independence
import Cadence.Proofs.Time.Windows
import Cadence.Proofs.Config.RoundTrip
import Cadence.Proofs.Schedule.Caps
import Cadence.Proofs.Schedule.ByCount
import Cadence.Proofs.Expr.ByCount
import Cadence.Proofs.Schedule.Fibonacci
import Cadence.Proofs.Run.Logged
import Cadence.Proofs.Time.Script
import Cadence.Proofs.Schedule.Decorrelated
import Cadence.Proofs.Schedule.Boxing
import Cadence.Proofs.Expr.Boxing
