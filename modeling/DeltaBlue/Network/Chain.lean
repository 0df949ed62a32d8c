import DeltaBlue.Operations

/-!
# Chains

A chain is a row of variables in which each is kept equal to its neighbour by a strong constraint.
In a one-way chain each variable is a copy of the one before it; in a two-way chain either of two
neighbours may follow the other.
-/

namespace DeltaBlue

/-- A row of linked variables. -/
structure Chain where
  /-- The variables. -/
  vars : List VarId
  /-- The constraint between each variable and the next. -/
  links : List ConstraintId
  deriving DecidableEq

namespace Chain

/-- The first variable. -/
def first? (c : Chain) : Option VarId := c.vars.head?

/-- The last variable. -/
def last? (c : Chain) : Option VarId := c.vars.getLast?

/-- The variable in the middle, the later one of two. -/
def middle? (c : Chain) : Option VarId := c.vars[c.vars.length / 2]?

/-- The values of the variables, in order. -/
def values {W T : Type} (c : Chain) (s : Solver W T) : Except SolveError (List T) :=
  c.vars.mapM s.read

end Chain

namespace SolveM

variable {W T : Type}

/-- The registration of a method that makes `output` a copy of `input`. -/
def copyOf (output input : VarId) : Registration W T :=
  .fallibleFormula output [input] .first

/-- Link each variable of a list to the next by a strong constraint with the given methods. -/
def linkNeighbours (fuel : Nat) (parts : VarId → VarId → List (Registration W T)) :
    List VarId → SolveM W T (List ConstraintId)
  | prev :: curr :: rest => do
    let link ← constrain fuel (← declare .strong (parts prev curr))
    return link :: (← linkNeighbours fuel parts (curr :: rest))
  | _ => return []

/-- Make a chain in which each variable follows the one before it. -/
def oneWayChain (fuel len : Nat) (value : T) : SolveM W T Chain := do
  let vars ← newVariables (List.replicate len value)
  return ⟨vars, ← linkNeighbours fuel (fun prev curr => [copyOf curr prev]) vars⟩

/-- Make a chain in which neighbours follow each other. -/
def twoWayChain (fuel len : Nat) (value : T) : SolveM W T Chain := do
  let vars ← newVariables (List.replicate len value)
  return ⟨vars,
    ← linkNeighbours fuel (fun prev curr => [copyOf curr prev, copyOf prev curr]) vars⟩

/-- Make a two-way chain whose last variable weakly stays. -/
def anchoredChain (fuel len : Nat) (value : T) : SolveM W T Chain := do
  let chain ← twoWayChain fuel len value
  if let some last := chain.last? then
    let _ ← stay fuel last .weak
  return chain

/-- Make a one-way chain whose first variable is read from the outside world on request. -/
def volatileChain (fuel len : Nat) (value : T) (source : W → T) : SolveM W T Chain := do
  let chain ← oneWayChain fuel len value
  if let some head := chain.first? then
    let d ← declare .strong [.volatileFormula head [] fun _ w => (source w, w)]
    let _ ← constrain fuel d
  return chain

end SolveM

end DeltaBlue
