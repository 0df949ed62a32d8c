import DeltaBlue.SolveM

/-!
# Recalculating one output

The output of an enforcing method takes three things from the rest of its constraint. Its walk
strength is the weakest of the constraint's strength and the walk strengths of the variables that
the constraint could determine instead. It is constant if the constraint is not volatile and its
other variables are constant. A constant output takes its value from running the method; an output
that is not constant is computed only on request.
-/

namespace DeltaBlue

namespace Solver

variable {W T : Type}

/-- The walk strength that a constraint gives to its output. -/
def walkStrengthOf (s : Solver W T) (d : Definition W T) (output : VarId) :
    Except SolveError Strength :=
  d.methods.foldlM (fun walk m =>
    if m.output = output then pure walk
    else do return walk.weakestOf (← s.lookupVariable m.output).walkStrength) d.strength

/-- Whether a constraint gives a constant value to its output. -/
def constancyOf (s : Solver W T) (d : Definition W T) (output : VarId) :
    Except SolveError Bool :=
  d.vars.foldlM (fun constant v =>
    if v = output then pure constant
    else do return constant && (← s.lookupVariable v).constant) !d.volatile

/-- The values of input variables, in order, or the cause that the first of them without a value
gives. -/
def gather (s : Solver W T) : List VarId → Except SolveError (Except FormulaError (List T))
  | [] => .ok (.ok [])
  | v :: rest => do
    match (← s.lookupVariable v).cell with
    | .poisoned cause => return .error cause
    | .unassigned => return .error (.unassignedInput v)
    | .assigned value => return (← s.gather rest).map (value :: ·)

end Solver

namespace SolveM

variable {W T : Type}

/-- Run a method on gathered values, in the world of the machine. A method whose inputs have no
values fails without being called. -/
def runOn (m : Method W T) (values : Except FormulaError (List T)) : SolveM W T (Outcome T) := do
  match values with
  | .error cause => return .fail cause
  | .ok values =>
    let (outcome, world) := m.run values (← get).world
    modify fun machine => { machine with world := world }
    return outcome

/-- Run a method of a constraint and store what comes of it in the method's output. -/
def execute (c : ConstraintId) (i : Nat) : SolveM W T Unit := do
  match (← getConstraint c).definition.method? i with
  | none => return
  | some m =>
    let inputs ← query (·.gather m.inputs)
    let outcome ← runOn m inputs
    count fun x => { x with methodsExecuted := x.methodsExecuted + 1 }
    let _ ← getVariable m.output
    match outcome with
    | .assign value => changeVariable m.output fun x => { x with cell := .assigned value }
    | .keep => pure ()
    | .fail cause =>
      note (.poisons c m.output cause)
      count fun x => { x with poisonedOutputs := x.poisonedOutputs + 1 }
      changeVariable m.output fun x => { x with cell := .poisoned cause }
    note (.executed c m.output inputs)

/-- Bring the output of a constraint up to date: its walk strength, its constancy and, if it is
constant, its value. -/
def recalculate (c : ConstraintId) : SolveM W T Unit := do
  let node ← getConstraint c
  match node.enforcing, node.output? with
  | some i, some output =>
    let walk ← query (·.walkStrengthOf node.definition output)
    let constant ← query (·.constancyOf node.definition output)
    changeVariable output fun x => { x with walkStrength := walk, constant := constant }
    if constant then execute c i
  | _, _ => return

end SolveM

end DeltaBlue
