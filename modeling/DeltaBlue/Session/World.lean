import DeltaBlue.Method

/-!
# The world of a session

Scripted methods act on a small world: named cells that they read, a record of the calls that asked
to be recorded, named counters and recorders, and the source that a volatile chain reads.
-/

namespace DeltaBlue

/-- Values by name. Of two entries with one name the first counts. -/
abbrev Table (α : Type) := List (String × α)

/-- Set the value of a name. -/
def Table.set {α : Type} (t : Table α) (name : String) (value : α) : Table α :=
  (name, value) :: t.filter (·.1 ≠ name)

/-- A recorded call: the tag of the method and the values that it was shown. -/
structure Event (T : Type) where
  /-- The tag. -/
  tag : String
  /-- The values. -/
  values : List T

/-- What scripted methods act on. -/
structure World (T : Type) where
  /-- Values that formulas can read. -/
  cells : Table T := []
  /-- The recorded calls, the latest first. -/
  events : List (Event T) := []
  /-- How often each counter was hit. -/
  counters : Table Nat := []
  /-- What each recorder was shown, in order. -/
  recorders : Table (List (List T)) := []
  /-- What the head of a volatile chain reads. -/
  source : T

namespace World

variable {T : Type}

/-- Record a call under a tag. -/
def log (tag : String) : Observe (World T) T := fun values w =>
  { w with events := ⟨tag, values⟩ :: w.events }

/-- How often a counter was hit. -/
def hits (w : World T) (counter : String) : Nat := (w.counters.lookup counter).getD 0

/-- Hit a counter. -/
def hit (w : World T) (counter : String) : World T :=
  { w with counters := w.counters.set counter (w.hits counter + 1) }

/-- What a recorder was shown. -/
def recorded (w : World T) (recorder : String) : List (List T) :=
  (w.recorders.lookup recorder).getD []

/-- Show values to a recorder. -/
def record (recorder : String) : Observe (World T) T := fun values w =>
  { w with recorders := w.recorders.set recorder (w.recorded recorder ++ [values]) }

end World

/-- The rule of a scripted computation. -/
inductive Rule (T : Type)
  /-- Fail for a reason. -/
  | fail (reason : String)
  /-- Fail as if an input had no value. -/
  | unassigned (input : VarId)
  /-- Fail as if the number of inputs were wrong. -/
  | arity (expected found : Nat)
  /-- Read a cell of the world. -/
  | cell (name : String)
  /-- Apply a function to the inputs. -/
  | apply (f : List T → Except FormulaError T)

/-- A scripted computation: a rule, and where its calls are recorded. -/
structure Formula (T : Type) where
  /-- What is computed. -/
  rule : Rule T
  /-- The tag under which each call is recorded. -/
  tag : Option String := none
  /-- The counter that each call hits. -/
  counter : Option String := none

namespace Formula

variable {T : Type}

/-- The result of a rule on input values. -/
def result (rule : Rule T) (values : List T) (w : World T) : Except FormulaError T :=
  match rule with
  | .fail reason => .error (.failed reason)
  | .unassigned input => .error (.unassignedInput input)
  | .arity expected found => .error (.arity expected found)
  | .cell name =>
    match w.cells.lookup name with
    | some value => .ok value
    | none => .error (.failed s!"empty cell {name}")
  | .apply f => f values

/-- Record a call. -/
def witnessed (f : Formula T) (values : List T) (w : World T) : World T :=
  let w := match f.tag with
    | some tag => World.log tag values w
    | none => w
  match f.counter with
  | some counter => w.hit counter
  | none => w

/-- The computation of a scripted formula. -/
def compute (f : Formula T) : Compute (World T) T := fun values w =>
  (result f.rule values w, f.witnessed values w)

/-- The computation of a scripted formula that gives the default value where it would fail. -/
def total [Inhabited T] (f : Formula T) : List T → World T → T × World T := fun values w =>
  ((result f.rule values w).toOption.getD default, f.witnessed values w)

end Formula

end DeltaBlue
