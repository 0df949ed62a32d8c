import DeltaBlue.Arena
import DeltaBlue.Definition
import DeltaBlue.Stamp

/-!
# Solver errors
-/

namespace DeltaBlue

/-- Why an operation of the solver failed. -/
inductive SolveError
  /-- A required constraint has no method left that it may use. -/
  | unsatisfiableRequired (constraint : ConstraintId)
  /-- The enforced methods formed a cycle, which was broken at the constraint. -/
  | cycleDetected (constraint : ConstraintId)
  /-- A variable was read whose computation failed. -/
  | formulaFailed (v : VarId) (cause : FormulaError)
  /-- A variable was read that has no value. -/
  | unassigned (v : VarId)
  /-- No such variable. -/
  | unknownVariable (v : VarId)
  /-- No such constraint. -/
  | unknownConstraint (constraint : ConstraintId)
  /-- A variable cannot be removed while constraints mention it. -/
  | variableInUse (v : VarId) (constraints : List ConstraintId)
  /-- The graph has changed since the plan was built. -/
  | planInvalidated (built current : Generation)
  /-- A declaration was refused. -/
  | build (cause : BuildError)
  /-- There is no room. -/
  | arena (cause : ArenaError)
  deriving DecidableEq

/-- The message of a solver error. -/
def SolveError.message : SolveError → String
  | unsatisfiableRequired c => s!"required constraint {c} cannot be satisfied"
  | cycleDetected c => s!"cycle detected at constraint {c}"
  | formulaFailed v cause => s!"variable {v} is poisoned: {cause.message}"
  | unassigned v => s!"variable {v} has no value"
  | unknownVariable v => s!"unknown variable {v}"
  | unknownConstraint c => s!"unknown constraint {c}"
  | variableInUse v cs => s!"variable {v} is referenced by {cs.length} constraint(s)"
  | planInvalidated built current =>
    s!"plan built at generation {built} is stale (solver is at {current})"
  | build cause => s!"invalid constraint: {cause.message}"
  | arena cause => s!"arena error: {cause.message}"

end DeltaBlue
