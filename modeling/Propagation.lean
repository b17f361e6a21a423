import Propagation.Model.Call
import Propagation.Proofs.Filter.Advance
import Propagation.Proofs.Store.Create
import Propagation.Proofs.Store.Level
import Propagation.Proofs.Store.Narrowing
import Propagation.Proofs.Store.Snapshot
import Propagation.Solution
import Propagation.Proofs.Filter.NotEqual
import Propagation.Proofs.Trail.Ticks
import Propagation.Proofs.Trail.RoundTrip
import Propagation.Proofs.Model.Step
import Propagation.Proofs.Queue
import Propagation.Proofs.Model.Post
import Propagation.Proofs.Model.Level
import Propagation.Proofs.Store.Ticks
import Propagation.Proofs.Model.Moves
import Propagation.Proofs.Marks
import Propagation.Proofs.Model.Tidy
import Propagation.Proofs.Model.Dispatch
import Propagation.Proofs.Model.Round
import Propagation.Proofs.Model.Session
import Propagation.Proofs.Model.Rollback
import Propagation.Proofs.Recorded
import Propagation.Proofs.Model.Wakeup
import Propagation.Proofs.Filter.Decide
import Propagation.Proofs.Filter.GraphChannel
import Propagation.Proofs.Filter.Monitor
import Propagation.Proofs.Filter.Channel
import Propagation.Proofs.Reached
import Propagation.Proofs.Replayed
import Propagation.Proofs.Delivered
import Propagation.Proofs.Filter.Coverage
import Propagation.Proofs.Filter.Entailment
import Propagation.Proofs.Filter.Constraint
import Propagation.Proofs.Model.Does
import Propagation.Proofs.Model.Flags
import Propagation.Proofs.Model.Profile
import Propagation.Proofs.Model.Underway
import Propagation.Proofs.Model.Sound
import Propagation.Proofs.Model.Attention
import Propagation.Proofs.Model.Pledged
import Propagation.Proofs.Model.Minded
import Propagation.Proofs.Solutions
import Propagation.Proofs.Sweep
import Propagation.Proofs.Model.Termination
import Propagation.Proofs.Model.Bookkeeping
import Propagation.Proofs.Apart
import Propagation.Proofs.Filter.Idle
import Propagation.Proofs.CommonFixpoint
import Propagation.Proofs.Model.Outline
import Propagation.Proofs.Detour
import Propagation.Proofs.Model.Faults
import Propagation.Proofs.Confluence
import Propagation.Proofs.Answers
import Propagation.Proofs.Filter.Range
import Propagation.Proofs.Violation
import Propagation.Proofs.Store.Offset
import Propagation.Proofs.Filter.Lasting
import Propagation.Proofs.Model.Retired
import Propagation.Proofs.Shortcut
import Propagation.Proofs.Incremental
import Propagation.Proofs.Exact
import Propagation.Proofs.Trail.Ledger
import Propagation.Proofs.Schedule
import Propagation.Proofs.Trail.Cuts
import Propagation.Proofs.Overflow
import Propagation.Proofs.Merging
import Propagation.Proofs.Trail.Records
import Propagation.Proofs.Trail.Zones
