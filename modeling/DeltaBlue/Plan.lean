import DeltaBlue.Operations

/-!
# Plans

Values downstream of a volatile constraint are computed on request. A plan lists the methods to run,
each after those whose outputs it reads, and can be executed as often as wanted as long as the graph
does not change. A plan that was built at another generation is refused.
-/

namespace DeltaBlue

/-- One step of a plan: a method to run. -/
structure PlanStep where
  /-- The constraint. -/
  constraint : ConstraintId
  /-- The index of the method. -/
  method : Nat
  /-- The output of the method. -/
  output : VarId
  deriving DecidableEq

/-- A list of methods to run in order. -/
structure Plan where
  /-- The methods. -/
  steps : List PlanStep
  /-- The generation at which the plan was built. -/
  generation : Generation
  deriving DecidableEq

namespace Solver

variable {W T : Type}

/-- Whether a constraint is enabled, volatile and enforcing. -/
def isVolatileSource (s : Solver W T) (c : ConstraintId) : Bool :=
  (s.constraintAt? c).any fun x => x.enabled && x.definition.volatile && x.isEnforcing

/-- The volatile sources that a list of seeds names: a constraint names itself, a variable the
constraints that mention it. -/
def sources (s : Solver W T) :
    List Handle → OrderedSet ConstraintId → Except SolveError (OrderedSet ConstraintId)
  | [], found => .ok found
  | .var v :: rest, found => do
    let x ← s.lookupVariable v
    s.sources rest (found.insertAll (x.incident.toList.filter s.isVolatileSource))
  | .constraint c :: rest, found => do
    let _ ← s.lookupConstraint c
    s.sources rest (found.insertAll ([c].filter s.isVolatileSource))

/-- Whether every variable of a list is constant or claimed in the pass. -/
def allKnown (s : Solver W T) (mark : Mark) : List VarId → Except SolveError Bool
  | [] => .ok true
  | v :: rest => do
    let x ← s.lookupVariable v
    if x.mark = mark ∨ x.constant then s.allKnown mark rest else return false

/-- The step that runs the method in force of a constraint, if there is one whose output is
unclaimed and whose inputs are known. -/
def readyStep? (s : Solver W T) (mark : Mark) (c : ConstraintId) :
    Except SolveError (Option PlanStep) := do
  let node ← s.lookupConstraint c
  match node.enforcing, node.output? with
  | some i, some output =>
    if (← s.lookupVariable output).mark = mark then return none
    if ← s.allKnown mark (node.definition.vars.filter (· ≠ output)) then
      return some ⟨c, i, output⟩
    return none
  | _, _ => return none

end Solver

namespace SolveM

variable {W T : Type}

/-- The steps that are ready among the constraints of a worklist and, after each step, among the
constraints that read its output. -/
def schedule (mark : Mark) : Nat → OrderedSet ConstraintId → SolveM W T (List PlanStep)
  | 0, _ => unfinished
  | fuel + 1, hot =>
    match hot.pop? with
    | none => return []
    | some (c, rest) => do
      match ← query (·.readyStep? mark c) with
      | none => schedule mark fuel rest
      | some step =>
        changeVariable step.output fun x => { x with mark := mark }
        let x ← getVariable step.output
        return step :: (← schedule mark fuel (rest.insertAll (← ask (·.consumers x))))

/-- Plan the computation of everything downstream of the volatile constraints that the seeds
name. -/
def plan (fuel : Nat) (seeds : List Handle) : SolveM W T Plan := do
  let hot ← query (·.sources seeds .empty)
  let steps ← schedule (← nextMark) fuel hot
  count fun x => { x with plansBuilt := x.plansBuilt + 1 }
  let generation ← ask (·.generation)
  note (.planned steps.length generation)
  return ⟨steps, generation⟩

/-- Run the steps of a plan, if the graph has not changed since it was built. -/
def executePlan (p : Plan) : SolveM W T Unit := do
  let current ← ask (·.generation)
  if p.generation ≠ current then throw (.planInvalidated p.generation current)
  p.steps.forM fun step => execute step.constraint step.method
  count fun x => { x with planStepsExecuted := x.planStepsExecuted + p.steps.length }

/-- Plan and execute for one seed. -/
def recompute (fuel : Nat) (seed : Handle) : SolveM W T Unit := do
  executePlan (← plan fuel [seed])

end SolveM

end DeltaBlue
