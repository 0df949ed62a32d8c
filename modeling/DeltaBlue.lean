import DeltaBlue.Formula.Arithmetic
import DeltaBlue.Formula.Concatenation
import DeltaBlue.Session.Step
import DeltaBlue.Session.Trial
import DeltaBlue.Proofs.Bookkeeping
import DeltaBlue.Proofs.Return
import DeltaBlue.Proofs.Values
import DeltaBlue.Proofs.Required
import DeltaBlue.Proofs.Rollback
import DeltaBlue.Proofs.Forest
import DeltaBlue.Proofs.Holding
import DeltaBlue.Proofs.Blocking
import DeltaBlue.Proofs.Tidying
import DeltaBlue.Proofs.Hierarchy
import DeltaBlue.Proofs.Halting
import DeltaBlue.Proofs.Integrity
import DeltaBlue.Proofs.Validity
import DeltaBlue.Proofs.Recompute
import DeltaBlue.Proofs.Idleness
import DeltaBlue.Proofs.Directory
import DeltaBlue.Proofs.Switching
import DeltaBlue.Proofs.Locality
import DeltaBlue.Proofs.Traces
import DeltaBlue.Proofs.Coverage
import DeltaBlue.Proofs.Replay
import DeltaBlue.Proofs.Price
import DeltaBlue.Proofs.Detection
import DeltaBlue.Proofs.CallTree
import DeltaBlue.Proofs.Unanimity
import DeltaBlue.Proofs.Writing
import DeltaBlue.Proofs.Handling
import DeltaBlue.Proofs.Observing
import DeltaBlue.Proofs.Poisoning
import DeltaBlue.Proofs.Freshness
import DeltaBlue.Proofs.Renaming
import DeltaBlue.Proofs.Refusal
import DeltaBlue.Proofs.Displacing
import DeltaBlue.Proofs.Vacating
