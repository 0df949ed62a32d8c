import DeltaBlue.Cell

/-!
# Methods

A method computes one output variable from the values of its input variables. What it does is its
action: hold a constant, leave the output alone, compute a value, or show the inputs to an observer.

Computations and observers may read and change the world outside the solver, a state of an arbitrary
type `W` that is handed to them and returned by them. A computation that is a function of its inputs
alone returns the world it was given.
-/

namespace DeltaBlue

/-- A computation over the input values, which may fail and may touch the outside world. -/
abbrev Compute (W T : Type) := List T → W → Except FormulaError T × W

/-- A callback that is shown the input values. -/
abbrev Observe (W T : Type) := List T → W → W

/-- What a method does when it is run. -/
inductive Action (W T : Type)
  /-- Set the output to a constant. -/
  | edit (value : T)
  /-- Leave the output as it is. -/
  | stay
  /-- Set the output to the result of a computation. -/
  | compute (f : Compute W T)
  /-- Call an observer and leave the output as it is. -/
  | observe (f : Observe W T)

/-- Whether an action is shown input values. -/
def Action.readsInputs {W T : Type} : Action W T → Bool
  | edit _ | stay => false
  | compute _ | observe _ => true

/-- What a run of a method asks of its output. -/
inductive Outcome (T : Type)
  /-- The output takes a value. -/
  | assign (value : T)
  /-- The output keeps its cell. -/
  | keep
  /-- The output is poisoned. -/
  | fail (cause : FormulaError)
  deriving DecidableEq

/-- A way to determine one variable from others. -/
structure Method (W T : Type) where
  /-- The variable that the method determines. -/
  output : VarId
  /-- The variables that it reads, in the order in which the action sees them. -/
  inputs : List VarId
  /-- What it does. -/
  action : Action W T
  /-- A method whose action is shown no values has no inputs. -/
  inputs_nil : action.readsInputs = false → inputs = []

namespace Method

variable {W T : Type}

/-- The method that sets its output to a constant. -/
def edit (output : VarId) (value : T) : Method W T :=
  ⟨output, [], .edit value, fun _ => rfl⟩

/-- The method that keeps its output. -/
def stay (output : VarId) : Method W T := ⟨output, [], .stay, fun _ => rfl⟩

/-- The method that computes its output. -/
def compute (output : VarId) (inputs : List VarId) (f : Compute W T) : Method W T :=
  ⟨output, inputs, .compute f, nofun⟩

/-- The method that shows its inputs to an observer. -/
def observe (output : VarId) (inputs : List VarId) (f : Observe W T) : Method W T :=
  ⟨output, inputs, .observe f, nofun⟩

/-- The variables of a method, the output first. -/
def vars (m : Method W T) : List VarId := m.output :: m.inputs

/-- A method is proper if it lists no input twice and does not read its own output. -/
structure Proper (m : Method W T) : Prop where
  /-- No input is listed twice. -/
  inputs_nodup : m.inputs.Nodup
  /-- The output is not among the inputs. -/
  output_not_mem : m.output ∉ m.inputs

/-- A proper method mentions no variable twice. -/
theorem Proper.vars_nodup {m : Method W T} (h : m.Proper) : m.vars.Nodup :=
  List.nodup_cons.2 ⟨h.output_not_mem, h.inputs_nodup⟩

/-- Setting a variable to a constant reads nothing, so there is nothing to repeat. -/
theorem edit_proper (output : VarId) (value : T) : (edit output value : Method W T).Proper :=
  ⟨List.nodup_nil, List.not_mem_nil⟩

/-- Keeping a variable reads nothing either. -/
theorem stay_proper (output : VarId) : (stay output : Method W T).Proper :=
  ⟨List.nodup_nil, List.not_mem_nil⟩

/-- What comes of the result of a computation. -/
def outcomeOf : Except FormulaError T → Outcome T
  | .ok value => .assign value
  | .error cause => .fail cause

/-- Run a method on input values. A computation is called only with as many values as the method
has inputs. -/
def run (m : Method W T) (values : List T) (w : W) : Outcome T × W :=
  match m.action with
  | .edit value => (.assign value, w)
  | .stay => (.keep, w)
  | .compute f =>
    if values.length = m.inputs.length then
      let (result, w') := f values w
      (outcomeOf result, w')
    else (.fail (.arity m.inputs.length values.length), w)
  | .observe f => (.keep, f values w)

/-- Call the computation of a method directly, with any number of values; a method of another kind
runs as usual. -/
def call (m : Method W T) (values : List T) (w : W) : Outcome T × W :=
  match m.action with
  | .compute f =>
    let (result, w') := f values w
    (outcomeOf result, w')
  | _ => m.run values w

/-- The same method on renamed variables. -/
def rename (m : Method W T) (f : VarId → VarId) : Method W T :=
  ⟨f m.output, m.inputs.map f, m.action, fun h => by rw [m.inputs_nil h, List.map_nil]⟩

end Method

/-- A computation that takes exactly `n` values and fails on any other number of them. -/
def Compute.fixed {W T : Type} (n : Nat) (f : Compute W T) : Compute W T := fun values w =>
  if values.length = n then f values w else (.error (.arity n values.length), w)

/-- A computation that cannot fail. -/
def Compute.total {W T : Type} (f : List T → W → T × W) : Compute W T := fun values w =>
  let (value, w') := f values w
  (.ok value, w')

/-- The computation that gives back its first value. -/
def Compute.first {W T : Type} : Compute W T := fun values w =>
  match values with
  | value :: _ => (.ok value, w)
  | [] => (.error (.arity 1 0), w)

end DeltaBlue
