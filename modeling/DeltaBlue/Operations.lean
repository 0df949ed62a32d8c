import DeltaBlue.Draft
import DeltaBlue.Propagation

/-!
# Operations on the graph

The operations through which variables and constraints are made, changed and removed. Enabling and
disabling are idempotent and count a new generation whenever they take effect. An enable that leaves
a required constraint without a method is rolled back. A value is written through a constraint that
is enabled for a moment, unless no constraint on the variable depends on its value right away.
-/

namespace DeltaBlue

namespace SolveM

variable {W T : Type}

/-- The result of building a definition. -/
def ofBuild {α : Type} (result : Except BuildError α) : SolveM W T α :=
  query fun _ => result.mapError .build

/-- The definition that registrations amount to. -/
def declare (strength : Strength) (parts : List (Registration W T)) :
    SolveM W T (Definition W T) :=
  ofBuild (Draft.define strength parts)

/-! ## Variables -/

/-- Make a variable with a value. -/
def newVariable (value : T) : SolveM W T VarId := storeVariable { cell := .assigned value }

/-- Make a variable without a value. -/
def newUnassigned : SolveM W T VarId := storeVariable { cell := .unassigned }

/-- Make a variable for each value of a list. -/
def newVariables : List T → SolveM W T (List VarId)
  | [] => return []
  | value :: rest => do
    let v ← newVariable value
    return v :: (← newVariables rest)

/-- The variable with a name, made without a value on first use. -/
def named (name : String) : SolveM W T VarId := do
  match ← ask fun s => s.vars.toList.find? (·.2.name = some name) with
  | some (v, _) => return v
  | none => storeVariable { cell := .unassigned, name := some name }

/-- The constraints, enabled or not, that mention a variable, by slot. -/
def users (v : VarId) : SolveM W T (List ConstraintId) :=
  ask fun s => (s.constraints.toList.filter (·.2.definition.vars.contains v)).map (·.1)

/-- Remove a variable that no constraint mentions. -/
def removeVariable (v : VarId) : SolveM W T Unit := do
  let _ ← getVariable v
  match ← users v with
  | [] => update fun s => { s with vars := s.vars.erase v }
  | cs => throw (.variableInUse v cs)

/-! ## Enabling and disabling -/

/-- Add a constraint again that was left without a method when `c` was enabled, if it still has none.
A failure is only noted. -/
def restore (fuel : Nat) (c failed : ConstraintId) : SolveM W T Unit := do
  let stranded ← ask fun s => (s.constraintAt? failed).any fun x => x.enabled && !x.isEnforcing
  if failed ≠ c ∧ stranded then
    if let .error e := ← attempt (add fuel failed) then note (.restoreFailed failed e)

/-- Take back the enabling of `c`, which left `failed` without a method, and try to enforce `failed`
again. Failures on the way are only noted. -/
def rollBackEnable (fuel : Nat) (c failed : ConstraintId) : SolveM W T Unit := do
  note (.enableRolledBack failed c)
  match ← ask (·.constraintAt? c) with
  | none => return
  | some node =>
    changeConstraint c fun x => { x with enabled := false }
    let undo ← attempt (if node.isEnforcing then remove fuel c else deregister c)
    if let .error e := undo then note (.rollbackFailed c e)
    restore fuel c failed

/-- Enforce a constraint that was made part of the graph, and take this back if it leaves a required
constraint without a method. -/
def settle (fuel : Nat) (c : ConstraintId) : SolveM W T Unit := do
  match ← attempt (add fuel c) with
  | .ok _ => return
  | .error (.unsatisfiableRequired failed) =>
    rollBackEnable fuel c failed
    throw (.unsatisfiableRequired failed)
  | .error e => throw e

/-- Make a constraint part of the graph and enforce it. -/
def enable (fuel : Nat) (c : ConstraintId) : SolveM W T Unit := do
  if (← getConstraint c).enabled then return
  changeConstraint c fun x => { x with enabled := true, enforcing := none }
  register c
  update fun s => { s with changes := s.changes + 1 }
  count fun x => { x with enables := x.enables + 1 }
  note (.enabling c)
  settle fuel c

/-- Take a constraint out of the graph. -/
def disable (fuel : Nat) (c : ConstraintId) : SolveM W T Unit := do
  let node ← getConstraint c
  if !node.enabled then return
  changeConstraint c fun x => { x with enabled := false }
  update fun s => { s with changes := s.changes + 1 }
  count fun x => { x with disables := x.disables + 1 }
  note (.disabling c)
  if node.isEnforcing then remove fuel c else deregister c

/-! ## Constraints -/

/-- Store a constraint, not enabled. Its variables must exist. -/
def insert (d : Definition W T) : SolveM W T ConstraintId := do
  d.vars.forM fun v => do let _ ← getVariable v
  storeConstraint { definition := d }

/-- Take a constraint out of the store, together with its sink. -/
def discard (c : ConstraintId) : SolveM W T Unit :=
  update fun s =>
    match (s.constraintAt? c).bind Constraint.sink with
    | some sink =>
      { s with constraints := s.constraints.erase c, vars := s.vars.erase sink }
    | none => { s with constraints := s.constraints.erase c }

/-- Disable a constraint and remove it. It is removed even if disabling fails. -/
def removeConstraint (fuel : Nat) (c : ConstraintId) : SolveM W T Unit := do
  let _ ← getConstraint c
  let result ← attempt (disable fuel c)
  discard c
  note (.removed c)
  query fun _ => result

/-- Enable a constraint, or remove it if that fails. -/
def enableOrRemove (fuel : Nat) (c : ConstraintId) : SolveM W T ConstraintId := do
  match ← attempt (enable fuel c) with
  | .ok _ => return c
  | .error e =>
    if let .error cleanup := ← attempt (removeConstraint fuel c) then
      note (.cleanupFailed c cleanup)
    throw e

/-- Store and enable a constraint. -/
def constrain (fuel : Nat) (d : Definition W T) : SolveM W T ConstraintId := do
  enableOrRemove fuel (← insert d)

/-- Enable a constraint that keeps a variable at its value. -/
def stay (fuel : Nat) (v : VarId) (strength : Strength) : SolveM W T ConstraintId :=
  constrain fuel (.stay strength v)

/-- Enable a constraint that holds a variable at a constant. -/
def edit (fuel : Nat) (v : VarId) (value : T) (strength : Strength) : SolveM W T ConstraintId :=
  constrain fuel (.edit strength none v value)

/-- Store an observer of variables that has `sink` as its output. -/
def insertObserver (sink : VarId) (inputs : List VarId) (f : Observe W T) :
    SolveM W T ConstraintId := do
  let strength ← ask (·.config.observerStrength)
  let c ← insert (← declare strength [.label "observer", .observer sink inputs f])
  changeConstraint c fun x => { x with sink := some sink }
  return c

/-- Enable an observer that is shown the values of variables whenever they change. Its output is a
hidden variable that is removed with it. -/
def observe (fuel : Nat) (inputs : List VarId) (f : Observe W T) : SolveM W T ConstraintId := do
  let sink ← newUnassigned
  match ← attempt (insertObserver sink inputs f) with
  | .ok c => enableOrRemove fuel c
  | .error e =>
    update fun s => { s with vars := s.vars.erase sink }
    throw e

/-- Store a copy of a constraint on renamed variables, not enabled. -/
def substitute (c : ConstraintId) (f : VarId → VarId) : SolveM W T ConstraintId := do
  insert (← ofBuild ((← getConstraint c).definition.substitute f))

/-! ## Writing -/

/-- Set the cell of a variable directly. -/
def writeDirectly (v : VarId) (value : T) : SolveM W T Unit := do
  changeVariable v fun x => { x with cell := .assigned value }
  count fun x => { x with directWrites := x.directWrites + 1 }
  note (.wroteDirectly v)

/-- Write a value through an edit constraint that is enabled, disabled and forgotten. -/
def writeThrough (fuel : Nat) (v : VarId) (value : T) : SolveM W T Unit := do
  let strength ← ask (·.config.writeStrength)
  let c ← storeConstraint { definition := .edit strength (some "write") v value }
  count fun x => { x with edits := x.edits + 1 }
  note (.writesThrough v c)
  let result ← attempt (enable fuel c)
  let cleanup ← attempt (disable fuel c)
  update fun s => { s with constraints := s.constraints.erase c }
  query fun _ => result
  query fun _ => cleanup

/-- Give a value to a variable and propagate it. The variable ends with another value if a stronger
constraint determines it. -/
def write (fuel : Nat) (v : VarId) (value : T) : SolveM W T Unit := do
  let x ← getVariable v
  let direct ← ask fun s =>
    x.incident.toList.all fun c => (s.constraintAt? c).any (·.definition.volatile)
  if direct then writeDirectly v value else writeThrough fuel v value

/-- Set the work counters to zero. -/
def resetMetrics : SolveM W T Unit := count fun _ => {}

end SolveM

end DeltaBlue
