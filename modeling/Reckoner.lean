import Reckoner.Expr.Grammar
import Reckoner.History
import Reckoner.Main
import Reckoner.Proofs.Accuracy.Arctangent
import Reckoner.Proofs.Accuracy.Exponential
import Reckoner.Proofs.Accuracy.Hyperbolic
import Reckoner.Proofs.Accuracy.Power
import Reckoner.Proofs.Accuracy.RealPower
import Reckoner.Proofs.Accuracy.Root
import Reckoner.Proofs.Accuracy.Trigonometry
import Reckoner.Proofs.Allowlist
import Reckoner.Proofs.Binary64.Shortest
import Reckoner.Proofs.Contamination
import Reckoner.Proofs.Exact.Evaluation
import Reckoner.Proofs.Exact.Rounding
import Reckoner.Proofs.Fusing
import Reckoner.Proofs.History.Presence
import Reckoner.Proofs.Json.Numbers
import Reckoner.Proofs.Json.Numerals
import Reckoner.Proofs.Json.Objects
import Reckoner.Proofs.Json.Strings
import Reckoner.Proofs.Limits
import Reckoner.Proofs.Number.Extremum
import Reckoner.Proofs.Number.Order
import Reckoner.Proofs.Parity
import Reckoner.Proofs.Power.Repeated
import Reckoner.Proofs.Range.Elementary
import Reckoner.Proofs.Range.Saturation
import Reckoner.Proofs.Reader.Faults
import Reckoner.Proofs.Recasing
import Reckoner.Proofs.Rounding
import Reckoner.Proofs.Session.Invariant
import Reckoner.Proofs.Session.Recall
import Reckoner.Proofs.Shell.Agreement
import Reckoner.Proofs.Shell.Answering
import Reckoner.Proofs.Shell.Interference
import Reckoner.Proofs.Text.Canonical
import Reckoner.Proofs.Token.Placement
import Reckoner.Proofs.Trace.Record
import Reckoner.Proofs.Walkthrough
import Reckoner.Proofs.Wire
import Reckoner.Request
import Reckoner.Session
