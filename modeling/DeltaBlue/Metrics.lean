/-!
# Work counters
-/

namespace DeltaBlue

/-- How much work a solver has done since it was made or its counters were reset. -/
structure Metrics where
  /-- Constraints enabled. -/
  enables : Nat := 0
  /-- Constraints disabled. -/
  disables : Nat := 0
  /-- Values written through an edit constraint. -/
  edits : Nat := 0
  /-- Values written without a constraint. -/
  directWrites : Nat := 0
  /-- Methods installed. -/
  enforcements : Nat := 0
  /-- Methods displaced by another constraint. -/
  retractions : Nat := 0
  /-- Methods run. -/
  methodsExecuted : Nat := 0
  /-- Runs that poisoned their output. -/
  poisonedOutputs : Nat := 0
  /-- Cycles found. -/
  cycles : Nat := 0
  /-- Required constraints that could not be enforced. -/
  unsatisfiable : Nat := 0
  /-- Plans built. -/
  plansBuilt : Nat := 0
  /-- Steps of plans executed. -/
  planStepsExecuted : Nat := 0
  deriving DecidableEq

/-- The counters in the order in which they are declared. -/
def Metrics.toList (m : Metrics) : List Nat :=
  [m.enables, m.disables, m.edits, m.directWrites, m.enforcements, m.retractions,
    m.methodsExecuted, m.poisonedOutputs, m.cycles, m.unsatisfiable, m.plansBuilt,
    m.planStepsExecuted]

end DeltaBlue
