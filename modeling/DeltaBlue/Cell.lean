import DeltaBlue.Key

/-!
# Value cells

The value of a variable lives in a cell. A cell is empty until a value is assigned, and it is
poisoned when the computation of its value failed; the poison keeps the cause of the failure and
spreads to everything computed from the cell.
-/

namespace DeltaBlue

/-- Why a formula gave no value. -/
inductive FormulaError
  /-- The formula itself refused, for the given reason. -/
  | failed (reason : String)
  /-- An input had no value to compute with. -/
  | unassignedInput (input : VarId)
  /-- The formula was given the wrong number of inputs. -/
  | arity (expected found : Nat)
  deriving DecidableEq

/-- The message of a formula error. -/
def FormulaError.message : FormulaError → String
  | failed reason => s!"formula failed: {reason}"
  | unassignedInput input => s!"formula input {input} has no value"
  | arity expected found => s!"formula expects {expected} inputs, got {found}"

/-- The place where a variable keeps its value. -/
inductive Cell (T : Type)
  /-- No value yet. -/
  | unassigned
  /-- A value. -/
  | assigned (value : T)
  /-- The last computation of the value failed. -/
  | poisoned (cause : FormulaError)
  deriving DecidableEq

namespace Cell

variable {T : Type}

instance : Inhabited (Cell T) := ⟨unassigned⟩

/-- The cell of a value that may be missing. -/
def ofOption : Option T → Cell T
  | some value => assigned value
  | none => unassigned

/-- The cell of the result of a computation. -/
def ofExcept : Except FormulaError T → Cell T
  | .ok value => assigned value
  | .error cause => poisoned cause

/-- The value in the cell, if there is one. -/
def value? : Cell T → Option T
  | assigned value => some value
  | _ => none

/-- The cause of the poison, if the cell is poisoned. -/
def poison? : Cell T → Option FormulaError
  | poisoned cause => some cause
  | _ => none

/-- Whether the cell holds a value. -/
def isAssigned (cell : Cell T) : Bool := cell.value?.isSome

end Cell

end DeltaBlue
