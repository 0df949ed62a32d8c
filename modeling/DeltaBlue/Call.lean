import DeltaBlue.Group
import DeltaBlue.Plan

/-!
# Calls

Everything that can be asked of a solver, as data: a `Query` reads, a `Call` may change. What comes
back is an `Answer` or a `SolveError`.
-/

namespace DeltaBlue

/-- A question about the state of a solver. -/
inductive Query
  /-- The number of variables and of constraints. -/
  | counts
  /-- The name of a variable. -/
  | nameOf (v : VarId)
  /-- The value of a variable. -/
  | read (v : VarId)
  /-- The cell of a variable. -/
  | cell (v : VarId)
  /-- The constraint that determines a variable. -/
  | determinedBy (v : VarId)
  /-- The walk strength of a variable. -/
  | walkStrength (v : VarId)
  /-- Whether a variable is constant. -/
  | isConstant (v : VarId)
  /-- The enabled constraints that mention a variable. -/
  | constraintsOn (v : VarId)
  /-- Whether a constraint is enabled. -/
  | isEnabled (c : ConstraintId)
  /-- Whether a constraint has a method in force. -/
  | isEnforcing (c : ConstraintId)
  /-- The variable that a constraint determines. -/
  | enforcingOutput (c : ConstraintId)
  /-- The strength of a constraint. -/
  | strength (c : ConstraintId)
  /-- Whether a constraint is volatile. -/
  | isVolatile (c : ConstraintId)
  /-- The label of a constraint. -/
  | label (c : ConstraintId)
  /-- The definition of a constraint. -/
  | definition (c : ConstraintId)
  /-- The generation of the graph. -/
  | generation
  /-- The work counters. -/
  | metrics
  /-- The settings. -/
  | config

/-- Something asked of a solver. -/
inductive Call (W T : Type)
  /-- A question. -/
  | query (q : Query)
  /-- Make a variable with a value. -/
  | newVariable (value : T)
  /-- Make a variable without a value. -/
  | newUnassigned
  /-- Make a variable for each value. -/
  | newVariables (values : List T)
  /-- Find or make the variable with a name. -/
  | named (name : String)
  /-- Give a value to a variable. -/
  | write (v : VarId) (value : T)
  /-- Remove a variable. -/
  | removeVariable (v : VarId)
  /-- Store a constraint. -/
  | insert (d : Definition W T)
  /-- Store and enable a constraint. -/
  | constrain (d : Definition W T)
  /-- Keep a variable at its value. -/
  | stay (v : VarId) (strength : Strength)
  /-- Hold a variable at a constant. -/
  | edit (v : VarId) (value : T) (strength : Strength)
  /-- Observe variables. -/
  | observe (inputs : List VarId) (f : Observe W T)
  /-- Store a copy of a constraint on renamed variables. -/
  | substitute (c : ConstraintId) (f : VarId → VarId)
  /-- Enable a constraint. -/
  | enable (c : ConstraintId)
  /-- Disable a constraint. -/
  | disable (c : ConstraintId)
  /-- Remove a constraint. -/
  | removeConstraint (c : ConstraintId)
  /-- Build a plan. -/
  | plan (seeds : List Handle)
  /-- Execute a plan. -/
  | executePlan (p : Plan)
  /-- Plan and execute for one seed. -/
  | recompute (seed : Handle)
  /-- Enable a group. -/
  | enableGroup (g : Group)
  /-- Disable a group. -/
  | disableGroup (g : Group)
  /-- Build a group. -/
  | buildGroup (script : GroupScript W T)
  /-- Set the work counters to zero. -/
  | resetMetrics

/-- What a call gives back. -/
inductive Answer (W T : Type)
  /-- Nothing but the fact that it was done. -/
  | done
  /-- Numbers of variables and of constraints. -/
  | counts (vars constraints : Nat)
  /-- The name of a variable, if it has one. -/
  | name (name : Option String)
  /-- The value of a variable. -/
  | value (value : T)
  /-- The cell of a variable. -/
  | cell (cell : Cell T)
  /-- Yes or no. -/
  | flag (b : Bool)
  /-- A strength. -/
  | strength (s : Strength)
  /-- The label of a constraint, if it has one. -/
  | label (label : Option String)
  /-- The constraint that determines a variable, if there is one. -/
  | determiner (c : Option ConstraintId)
  /-- The variable that a constraint determines, if there is one. -/
  | output (v : Option VarId)
  /-- A variable. -/
  | var (v : VarId)
  /-- Several variables. -/
  | vars (vs : List VarId)
  /-- A constraint. -/
  | constraint (c : ConstraintId)
  /-- Several constraints. -/
  | constraints (cs : List ConstraintId)
  /-- What a constraint declares. -/
  | definition (d : Definition W T)
  /-- The generation of the graph. -/
  | generation (g : Generation)
  /-- The work counters. -/
  | metrics (m : Metrics)
  /-- The settings. -/
  | config (c : Config)
  /-- A plan. -/
  | plan (p : Plan)
  /-- A group, and what was made for it. -/
  | built (g : Group) (made : List Handle)

variable {W T : Type}

namespace Query

/-- The answer to a question. -/
def answer (s : Solver W T) : Query → Except SolveError (Answer W T)
  | counts => return .counts s.vars.size s.constraints.size
  | nameOf v => return .name ((s.variableAt? v).bind Variable.name)
  | read v => return .value (← s.read v)
  | cell v => return .cell (← s.lookupVariable v).cell
  | determinedBy v => return .determiner (← s.lookupVariable v).determinedBy
  | walkStrength v => return .strength (← s.lookupVariable v).walkStrength
  | isConstant v => return .flag (← s.lookupVariable v).constant
  | constraintsOn v => return .constraints (← s.lookupVariable v).incident.toList
  | isEnabled c => return .flag (← s.lookupConstraint c).enabled
  | isEnforcing c => return .flag (← s.lookupConstraint c).isEnforcing
  | enforcingOutput c => return .output (← s.lookupConstraint c).output?
  | strength c => return .strength (← s.lookupConstraint c).definition.strength
  | isVolatile c => return .flag (← s.lookupConstraint c).definition.volatile
  | label c => return .label (← s.lookupConstraint c).definition.label
  | definition c => return .definition (← s.lookupConstraint c).definition
  | generation => return .generation s.generation
  | metrics => return .metrics s.metrics
  | config => return .config s.config

end Query

namespace Call

/-- Carry out a call; every walk over the graph may take `fuel` steps. -/
def run (fuel : Nat) : Call W T → SolveM W T (Answer W T)
  | query q => SolveM.query q.answer
  | newVariable value => return .var (← SolveM.newVariable value)
  | newUnassigned => return .var (← SolveM.newUnassigned)
  | newVariables values => return .vars (← SolveM.newVariables values)
  | named name => return .var (← SolveM.named name)
  | write v value => do
    SolveM.write fuel v value
    return .done
  | removeVariable v => do
    SolveM.removeVariable v
    return .done
  | insert d => return .constraint (← SolveM.insert d)
  | constrain d => return .constraint (← SolveM.constrain fuel d)
  | stay v strength => return .constraint (← SolveM.stay fuel v strength)
  | edit v value strength => return .constraint (← SolveM.edit fuel v value strength)
  | observe inputs f => return .constraint (← SolveM.observe fuel inputs f)
  | substitute c f => return .constraint (← SolveM.substitute c f)
  | enable c => do
    SolveM.enable fuel c
    return .done
  | disable c => do
    SolveM.disable fuel c
    return .done
  | removeConstraint c => do
    SolveM.removeConstraint fuel c
    return .done
  | plan seeds => return .plan (← SolveM.plan fuel seeds)
  | executePlan p => do
    SolveM.executePlan p
    return .done
  | recompute seed => do
    SolveM.recompute fuel seed
    return .done
  | enableGroup g => do
    SolveM.enableGroup fuel g
    return .done
  | disableGroup g => do
    SolveM.disableGroup fuel g
    return .done
  | buildGroup script => do
    let (g, made) ← SolveM.buildGroup script
    return .built g made
  | resetMetrics => do
    SolveM.resetMetrics
    return .done

end Call

end DeltaBlue
