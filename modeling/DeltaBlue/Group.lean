import DeltaBlue.Operations

/-!
# Groups

A group is an ordered collection of constraints and of other groups, which are enabled and disabled
together.
-/

namespace DeltaBlue

/-- A list of members, each a constraint or a group. -/
inductive Group
  /-- No members. -/
  | empty
  /-- A constraint, then the other members. -/
  | constraint (c : ConstraintId) (rest : Group)
  /-- A group, then the other members. -/
  | nested (inner rest : Group)
  deriving DecidableEq

namespace Group

instance : Inhabited Group := ⟨empty⟩

/-- The members of one group, then those of another. -/
def append : Group → Group → Group
  | empty, g => g
  | constraint c rest, g => constraint c (rest.append g)
  | nested inner rest, g => nested inner (rest.append g)

/-- Add a constraint as the last member. -/
def push (g : Group) (c : ConstraintId) : Group := g.append (constraint c empty)

/-- Add a group as the last member. -/
def pushGroup (g inner : Group) : Group := g.append (nested inner empty)

/-- The group of the constraints of a list. -/
def ofList (cs : List ConstraintId) : Group := cs.foldr constraint empty

/-- Add the constraints of a list as the last members. -/
def extend (g : Group) (cs : List ConstraintId) : Group := g.append (ofList cs)

/-- The number of members; a group inside counts once. -/
def size : Group → Nat
  | empty => 0
  | constraint _ rest => rest.size + 1
  | nested _ rest => rest.size + 1

/-- Whether there are no members. -/
def isEmpty (g : Group) : Bool := g.size == 0

/-- The constraints of a group and of the groups in it, in order. -/
def constraints : Group → List ConstraintId
  | empty => []
  | constraint c rest => c :: rest.constraints
  | nested inner rest => inner.constraints ++ rest.constraints

end Group

/-- What to do to build a group. Constraints that are made on the way join the group. -/
inductive GroupScript (W T : Type)
  /-- Nothing more. -/
  | done
  /-- Add a constraint that exists. -/
  | add (c : ConstraintId) (rest : GroupScript W T)
  /-- Make a variable. -/
  | newVariable (value : T) (rest : GroupScript W T)
  /-- Make a constraint, not enabled. -/
  | declare (strength : Strength) (parts : List (Registration W T)) (rest : GroupScript W T)
  /-- Build a group inside the group. -/
  | group (inner rest : GroupScript W T)

namespace SolveM

variable {W T : Type}

/-- Disable constraints in order; failures are only noted. -/
def undoMembers (fuel : Nat) : List ConstraintId → SolveM W T Unit
  | [] => return
  | c :: rest => do
    if let .error e := ← attempt (disable fuel c) then note (.memberUndoFailed c e)
    undoMembers fuel rest

/-- Enable constraints in order. `done` are the ones enabled so far, the latest first; at the first
failure they are disabled again. -/
def enableMembers (fuel : Nat) : List ConstraintId → List ConstraintId → SolveM W T Unit
  | [], _ => return
  | c :: rest, done => do
    if (← getConstraint c).enabled then enableMembers fuel rest done
    else match ← attempt (enable fuel c) with
      | .ok _ => enableMembers fuel rest (c :: done)
      | .error e =>
        let stays ← ask fun s => (s.constraintAt? c).any (·.enabled)
        note (.memberFailed c e)
        undoMembers fuel (if stays then c :: done else done)
        throw e

/-- Enable the constraints of a group in order. Those that are enabled already are passed over. If
one cannot be enabled, those enabled before it are disabled again. -/
def enableGroup (fuel : Nat) (g : Group) : SolveM W T Unit := do
  note (.enablingGroup g.constraints.length)
  enableMembers fuel g.constraints []

/-- Disable constraints in order. Fails with the first failure, after all were tried. -/
def disableMembers (fuel : Nat) : List ConstraintId → Option SolveError → SolveM W T Unit
  | [], none => return
  | [], some e => throw e
  | c :: rest, failure => do
    match ← attempt (disable fuel c) with
    | .ok _ => disableMembers fuel rest failure
    | .error e => disableMembers fuel rest (failure.or (some e))

/-- Disable the constraints of a group, the last first. -/
def disableGroup (fuel : Nat) (g : Group) : SolveM W T Unit := do
  note (.disablingGroup g.constraints.length)
  disableMembers fuel g.constraints.reverse none

/-- Build a group as a script says, and give it together with everything that was made on the way,
in order. -/
def buildGroup : GroupScript W T → SolveM W T (Group × List Handle)
  | .done => return (.empty, [])
  | .add c rest => do
    let _ ← getConstraint c
    let (g, made) ← buildGroup rest
    return (.constraint c g, made)
  | .newVariable value rest => do
    let v ← newVariable value
    let (g, made) ← buildGroup rest
    return (g, .var v :: made)
  | .declare strength parts rest => do
    let c ← insert (← declare strength parts)
    let (g, made) ← buildGroup rest
    return (.constraint c g, .constraint c :: made)
  | .group inner rest => do
    let (h, madeInside) ← buildGroup inner
    let (g, made) ← buildGroup rest
    return (.nested h g, madeInside ++ made)

end SolveM

end DeltaBlue
