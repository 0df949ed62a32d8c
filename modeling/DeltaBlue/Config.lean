import DeltaBlue.Strength

/-!
# Solver configuration
-/

namespace DeltaBlue

/-- The settings of a solver. -/
structure Config where
  /-- The strength of the constraint through which a value is written. -/
  writeStrength : Strength := .required
  /-- The strength of observers. -/
  observerStrength : Strength := .required
  /-- How many variables to expect. -/
  variableCapacity : Nat := 0
  /-- How many constraints to expect. -/
  constraintCapacity : Nat := 0
  deriving DecidableEq

/-- Why a configuration was refused. -/
inductive ConfigError
  /-- A write at the weakest strength could never take effect. -/
  | weakestWriteStrength
  /-- An observer at the weakest strength could never be enforced. -/
  | weakestObserverStrength
  deriving DecidableEq

/-- The message of a configuration error. -/
def ConfigError.message : ConfigError → String
  | weakestWriteStrength => "write_strength must be stronger than weakest"
  | weakestObserverStrength => "observer_strength must be stronger than weakest"

/-- The first thing wrong with a configuration. -/
def Config.fault? (config : Config) : Option ConfigError :=
  if config.writeStrength = .weakest then some .weakestWriteStrength
  else if config.observerStrength = .weakest then some .weakestObserverStrength
  else none

end DeltaBlue
