import DeltaBlue.Recalculation

/-!
# Incremental propagation

To add a constraint, its weakest usable method is installed, and the constraint that determined the
method's output before is displaced; everything downstream is recalculated, and the displaced
constraint is added in its turn, in the same pass, until nothing is displaced. To remove a
constraint, its output is vacated, everything downstream is recalculated, and the constraints found
on the way that are left without a method are added again, the strongest first.

A pass draws a mark, and a variable that carries the mark has been claimed in the pass. The walk
that follows an installed method may come back to a claimed variable; the methods then form a
cycle, and the constraint that closes it is disabled and removed.

The walks use worklists, and on a graph that contains a cycle of methods they need not end. So every
walk has a number of steps that it may take, its fuel, and does not finish if it needs more. Adding
and removing call each other, once for every cycle found, and spend the same fuel on the depth of
these calls.
-/

namespace DeltaBlue

namespace Solver

variable {W T : Type}

/-- Of the methods in a list that starts at index `i`, the one whose output is unclaimed in the pass
and held most weakly, provided it is held more weakly than `bound`; else `chosen`. The first method
wins a tie. -/
def weakestMethodFrom (s : Solver W T) (mark : Mark) :
    List (Method W T) → Nat → Strength → Option Nat → Except SolveError (Option Nat)
  | [], _, _, chosen => .ok chosen
  | m :: rest, i, bound, chosen => do
    let x ← s.lookupVariable m.output
    if x.mark ≠ mark ∧ x.walkStrength < bound then
      s.weakestMethodFrom mark rest (i + 1) x.walkStrength (some i)
    else s.weakestMethodFrom mark rest (i + 1) bound chosen

/-- The method that a constraint may use in a pass: the one whose output is unclaimed and held most
weakly, provided it is held more weakly than the constraint insists. -/
def weakestMethod (s : Solver W T) (mark : Mark) (d : Definition W T) :
    Except SolveError (Option Nat) :=
  s.weakestMethodFrom mark d.methods 0 d.strength none

/-- Constraints ordered by strength, the strongest first; among equals the order is kept. -/
def rank (s : Solver W T) (cs : List ConstraintId) : List ConstraintId :=
  Strength.all.reverse.flatMap fun strength =>
    cs.filter fun c => (s.constraintAt? c).any (·.definition.strength = strength)

end Solver

namespace SolveM

variable {W T : Type}

/-- Enter a constraint into the incidence sets of its variables. -/
def register (c : ConstraintId) : SolveM W T Unit := do
  (← getConstraint c).definition.vars.forM fun v =>
    changeVariable v fun x => { x with incident := x.incident.insert c }

/-- Take a constraint out of the incidence sets of its variables. -/
def deregister (c : ConstraintId) : SolveM W T Unit := do
  (← getConstraint c).definition.vars.forM fun v =>
    update (·.modifyVariable v fun x => { x with incident := x.incident.erase c })

/-- Make a constraint the determiner of a variable and give the constraint that it displaces. -/
def seize (c : ConstraintId) (output : VarId) : SolveM W T (Option ConstraintId) := do
  let displaced := (← getVariable output).determinedBy
  if let some other := displaced then
    changeConstraint other fun x => { x with enforcing := none }
    count fun x => { x with retractions := x.retractions + 1 }
    note (.retracts c other output)
  changeVariable output fun x => { x with determinedBy := some c }
  count fun x => { x with enforcements := x.enforcements + 1 }
  note (.enforces c output)
  return displaced

/-- Choose a method for a constraint and install it: claim the variables that it reads, and seize
its output. Gives the output and the constraint displaced from it, or nothing if there is no method
that the constraint may use. -/
def install (mark : Mark) (c : ConstraintId) :
    SolveM W T (Option (VarId × Option ConstraintId)) := do
  let node ← getConstraint c
  let chosen ← query (·.weakestMethod mark node.definition)
  changeConstraint c fun x => { x with enforcing := chosen }
  match chosen.bind node.definition.method? with
  | none =>
    if node.definition.strength.isRequired then
      count fun x => { x with unsatisfiable := x.unsatisfiable + 1 }
      throw (.unsatisfiableRequired c)
    note (.leftUnenforced c)
    return none
  | some m =>
    (node.definition.vars.filter (· ≠ m.output)).forM fun v =>
      changeVariable v fun x => { x with mark := mark }
    return some (m.output, ← seize c m.output)

/-- Recalculate the constraints of a worklist and everything downstream of them. The walk stops at a
constraint whose output is claimed in the pass, and gives that constraint and its output. -/
def sweep (mark : Mark) :
    Nat → OrderedSet ConstraintId → SolveM W T (Option (ConstraintId × VarId))
  | 0, _ => unfinished
  | fuel + 1, todo =>
    match todo.pop? with
    | none => return none
    | some (c, rest) => do
      match (← getConstraint c).output? with
      | none => sweep mark fuel rest
      | some output =>
        if (← getVariable output).mark = mark then return some (c, output)
        recalculate c
        let x ← getVariable output
        sweep mark fuel (rest.insertAll (← ask (·.consumers x)))

/-- Install a method for a constraint and recalculate what depends on it. A cycle is broken by
disabling the constraint that closes it, which `remove` takes out of the graph. Gives the constraint
that was displaced. -/
def enforce (remove : ConstraintId → SolveM W T Unit) (fuel : Nat) (mark : Mark)
    (c : ConstraintId) : SolveM W T (Option ConstraintId) := do
  match ← install mark c with
  | none => return none
  | some (output, displaced) =>
    match ← sweep mark fuel (.singleton c) with
    | some (closing, claimed) =>
      note (.cycleBroken closing claimed)
      count fun x => { x with cycles := x.cycles + 1 }
      changeConstraint closing fun x => { x with enabled := false }
      remove closing
      throw (.cycleDetected closing)
    | none =>
      changeVariable output fun x => { x with mark := mark }
      return displaced

/-- Enforce a constraint, then the one that it displaced, and so on. -/
def displace (remove : ConstraintId → SolveM W T Unit) (fuel : Nat) (mark : Mark) :
    Nat → ConstraintId → SolveM W T Unit
  | 0, _ => unfinished
  | steps + 1, c => do
    match ← enforce remove fuel mark c with
    | none => return
    | some next => displace remove fuel mark steps next

/-- Recalculate constraints in order, and add the outputs that they determine to a worklist. -/
def refresh : List ConstraintId → OrderedSet VarId → SolveM W T (OrderedSet VarId)
  | [], todo => return todo
  | c :: rest, todo => do
    recalculate c
    match (← getConstraint c).output? with
    | none => refresh rest todo
    | some output => refresh rest (todo.insert output)

/-- Recalculate everything downstream of the variables of a worklist, and collect the constraints
met on the way that have no method in force. -/
def strandedFrom :
    Nat → OrderedSet VarId → OrderedSet ConstraintId → SolveM W T (OrderedSet ConstraintId)
  | 0, _, _ => unfinished
  | fuel + 1, todo, found =>
    match todo.pop? with
    | none => return found
    | some (v, rest) => do
      let x ← getVariable v
      let s ← ask id
      let todo ← refresh (s.consumers x) rest
      strandedFrom fuel todo (found.insertAll (x.incident.toList.filter s.isUnenforced))

/-- Vacate a variable and recalculate everything downstream of it. Gives the constraints met on the
way that have no method in force, the strongest first. -/
def vacate (fuel : Nat) (output : VarId) : SolveM W T (List ConstraintId) := do
  changeVariable output Variable.release
  let found ← strandedFrom fuel (.singleton output) .empty
  ask (·.rank found.toList)

/-- Try to add every constraint of a list that is enabled and has no method in force. Fails with the
first failure, after all were tried. -/
def readd (add : ConstraintId → SolveM W T Unit) :
    List ConstraintId → Option SolveError → SolveM W T Unit
  | [], none => return
  | [], some e => throw e
  | c :: rest, failure => do
    let node ← getConstraint c
    if node.enabled && !node.isEnforcing then
      match ← attempt (add c) with
      | .ok _ => readd add rest failure
      | .error e => readd add rest (failure.or (some e))
    else readd add rest failure

/-- Take the method of a constraint out of force and the constraint out of the incidence sets, and
`add` the constraints that this leaves stranded. The enabled flag is the caller's. -/
def withdraw (add : ConstraintId → SolveM W T Unit) (fuel : Nat) (c : ConstraintId) :
    SolveM W T Unit := do
  let output := (← getConstraint c).output?
  changeConstraint c fun x => { x with enforcing := none }
  deregister c
  match output with
  | none => return
  | some output =>
    note (.releases c output)
    readd add (← vacate fuel output) none

/-- Enforce a constraint in a new pass, together with whatever it displaces. -/
def add : Nat → ConstraintId → SolveM W T Unit
  | 0, _ => unfinished
  | fuel + 1, c => do
    displace (withdraw (add fuel) fuel) fuel (← nextMark) fuel c

/-- Take a constraint out of the graph, and enforce what this leaves stranded. -/
def remove (fuel : Nat) (c : ConstraintId) : SolveM W T Unit := withdraw (add fuel) fuel c

end SolveM

end DeltaBlue
