import DeltaBlue.Config
import DeltaBlue.Metrics
import DeltaBlue.SolveError

/-!
# The solver's state

A solver holds variables and constraints. A variable keeps, besides its value cell, the enabled
constraints that mention it, the constraint that determines it, and the strength and constancy of
its value; a constraint keeps whether it is enabled and which of its methods is enforcing.
-/

namespace DeltaBlue

/-- A variable of the constraint graph. -/
structure Variable (T : Type) where
  /-- The value. -/
  cell : Cell T
  /-- The name, if the variable was made by name. -/
  name : Option String := none
  /-- The enabled constraints that mention the variable, in the order in which they were enabled. -/
  incident : OrderedSet ConstraintId := .empty
  /-- The constraint whose enforcing method has the variable as its output. -/
  determinedBy : Option ConstraintId := none
  /-- The strength of the weakest constraint that would have to give way to change the value. -/
  walkStrength : Strength := .weakest
  /-- Whether the value is fixed until the graph changes. -/
  constant : Bool := true
  /-- The mark of the last pass that claimed the variable. -/
  mark : Mark := .none

/-- A variable that no constraint determines any longer. -/
def Variable.release {T : Type} (x : Variable T) : Variable T :=
  { x with determinedBy := none, walkStrength := .weakest, constant := true }

/-- A constraint of the graph. -/
structure Constraint (W T : Type) where
  /-- What it declares. -/
  definition : Definition W T
  /-- Whether it is part of the graph. -/
  enabled : Bool := false
  /-- The index of its enforcing method. -/
  enforcing : Option Nat := none
  /-- The hidden output of an observer, which goes with the constraint. -/
  sink : Option VarId := none

namespace Constraint

variable {W T : Type}

/-- The method in force. -/
def enforcingMethod? (c : Constraint W T) : Option (Method W T) :=
  c.enforcing.bind c.definition.method?

/-- The variable that the method in force determines. -/
def output? (c : Constraint W T) : Option VarId := c.enforcingMethod?.map Method.output

/-- Whether a method is in force. -/
def isEnforcing (c : Constraint W T) : Bool := c.enforcing.isSome

end Constraint

/-- A set of variables and constraints. -/
structure Solver (W T : Type) where
  /-- The variables. -/
  vars : Arena .var (Variable T)
  /-- The constraints, enabled or not. -/
  constraints : Arena .constraint (Constraint W T)
  /-- How many passes over the graph were begun. -/
  passes : Nat
  /-- How many times the set of enabled constraints was changed. -/
  changes : Nat
  /-- The settings. -/
  config : Config
  /-- The work counters. -/
  metrics : Metrics

namespace Solver

variable {W T : Type}

/-- The solver without variables and constraints. -/
def empty (config : Config) : Solver W T where
  vars := .empty
  constraints := .empty
  passes := 0
  changes := 0
  config := config
  metrics := {}

/-- The empty solver with a configuration that is checked first. -/
def ofConfig (config : Config) : Except ConfigError (Solver W T) :=
  match config.fault? with
  | some e => .error e
  | none => .ok (empty config)

instance : Inhabited (Solver W T) := ⟨empty {}⟩

/-- The mark of the last pass. -/
def mark (s : Solver W T) : Mark := .ofPass s.passes

/-- The generation of the set of enabled constraints. -/
def generation (s : Solver W T) : Generation := .ofChanges s.changes

/-- The variable with an identifier. -/
def variableAt? (s : Solver W T) (v : VarId) : Option (Variable T) := s.vars.get? v

/-- The constraint with an identifier. -/
def constraintAt? (s : Solver W T) (c : ConstraintId) : Option (Constraint W T) :=
  s.constraints.get? c

/-- The variable with an identifier, which must exist. -/
def lookupVariable (s : Solver W T) (v : VarId) : Except SolveError (Variable T) :=
  match s.variableAt? v with
  | some x => .ok x
  | none => .error (.unknownVariable v)

/-- The constraint with an identifier, which must exist. -/
def lookupConstraint (s : Solver W T) (c : ConstraintId) :
    Except SolveError (Constraint W T) :=
  match s.constraintAt? c with
  | some x => .ok x
  | none => .error (.unknownConstraint c)

/-- The value of a variable, which must have one. -/
def read (s : Solver W T) (v : VarId) : Except SolveError T := do
  match (← s.lookupVariable v).cell with
  | .assigned value => return value
  | .poisoned cause => throw (.formulaFailed v cause)
  | .unassigned => throw (.unassigned v)

/-- Change the variable with an identifier; nothing happens if there is none. -/
def modifyVariable (s : Solver W T) (v : VarId) (f : Variable T → Variable T) : Solver W T :=
  { s with vars := s.vars.modify v f }

/-- Change the constraint with an identifier; nothing happens if there is none. -/
def modifyConstraint (s : Solver W T) (c : ConstraintId)
    (f : Constraint W T → Constraint W T) : Solver W T :=
  { s with constraints := s.constraints.modify c f }

/-- Whether a live constraint has a method in force. -/
def isEnforcing (s : Solver W T) (c : ConstraintId) : Bool :=
  (s.constraintAt? c).any Constraint.isEnforcing

/-- Whether a live constraint has no method in force. -/
def isUnenforced (s : Solver W T) (c : ConstraintId) : Bool :=
  (s.constraintAt? c).any fun x => !x.isEnforcing

/-- The constraints with a method in force that read a variable. -/
def consumers (s : Solver W T) (x : Variable T) : List ConstraintId :=
  x.incident.toList.filter fun c => some c ≠ x.determinedBy && s.isEnforcing c

end Solver

end DeltaBlue
