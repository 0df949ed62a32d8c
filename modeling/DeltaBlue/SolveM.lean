import DeltaBlue.Notice
import DeltaBlue.Solver

/-!
# Operations on a machine

A `Machine` is a solver together with the outside world that its methods act on and the journal of
what was done. Operations run in `SolveM`: they change the machine, and they succeed, fail with a
`SolveError`, or do not finish. A failed operation keeps the changes made before the failure. An
operation that does not finish within its fuel has no result; it is stopped, and only the machine
that it had come to is known. `SolveM.exec` runs an operation, and the lemmas `exec_*` say what the
basic operations do; `SolveM.stop?` is where an operation is stopped.
-/

namespace DeltaBlue

/-- A solver, the world that its methods act on, and the journal. -/
structure Machine (W T : Type) where
  /-- The solver. -/
  solver : Solver W T
  /-- The world outside. -/
  world : W
  /-- What was done, the latest first. -/
  journal : List (Notice T) := []

/-- An operation on a machine that may fail or not finish. -/
abbrev SolveM (W T : Type) := ExceptT SolveError (StateT (Machine W T) (Except (Machine W T)))

namespace SolveM

variable {W T α β : Type}

/-- Run an operation: no result if it does not finish, else its outcome and the machine after it. -/
def exec (op : SolveM W T α) (m : Machine W T) : Option (Except SolveError α × Machine W T) :=
  ((ExceptT.run op).run m).toOption

/-- The machine at which an operation is stopped because it does not finish. -/
def stop? (op : SolveM W T α) (m : Machine W T) : Option (Machine W T) :=
  match (ExceptT.run op).run m with
  | .ok _ => none
  | .error m' => some m'

/-- The operation that does not finish. -/
def unfinished : SolveM W T α := ExceptT.mk fun m => .error m

/-- Run an operation and hand its failure over as a value. -/
def attempt (op : SolveM W T α) : SolveM W T (Except SolveError α) :=
  ExceptT.mk do
    let r ← op.run
    pure (.ok r)

/-- Look something up in the solver. -/
def ask (f : Solver W T → α) : SolveM W T α := do
  return f (← get).solver

/-- Look something up in the solver that may be missing. -/
def query (f : Solver W T → Except SolveError α) : SolveM W T α := do
  match f (← get).solver with
  | .ok a => pure a
  | .error e => throw e

/-- Change the solver. -/
def update (f : Solver W T → Solver W T) : SolveM W T Unit :=
  modify fun m => { m with solver := f m.solver }

/-- Write a notice into the journal. -/
def note (n : Notice T) : SolveM W T Unit :=
  modify fun m => { m with journal := n :: m.journal }

/-- Change the work counters. -/
def count (f : Metrics → Metrics) : SolveM W T Unit :=
  update fun s => { s with metrics := f s.metrics }

/-- A value is returned on the machine as it is. -/
@[simp] theorem exec_pure (a : α) (m : Machine W T) :
    exec (pure a) m = some (.ok a, m) := rfl

/-- A failure leaves the machine as it is. -/
@[simp] theorem exec_throw (e : SolveError) (m : Machine W T) :
    exec (throw e : SolveM W T α) m = some (.error e, m) := rfl

/-- What does not finish has no result. -/
@[simp] theorem exec_unfinished (m : Machine W T) :
    exec (unfinished : SolveM W T α) m = none := rfl

/-- Something is looked up on the machine as it is. -/
@[simp] theorem exec_ask (f : Solver W T → α) (m : Machine W T) :
    exec (ask f) m = some (.ok (f m.solver), m) := rfl

/-- A change of the solver leaves the world and the journal. -/
@[simp] theorem exec_update (f : Solver W T → Solver W T) (m : Machine W T) :
    exec (update f) m = some (.ok (), { m with solver := f m.solver }) := rfl

/-- The latest notice stands first in the journal. -/
@[simp] theorem exec_note (n : Notice T) (m : Machine W T) :
    exec (note n) m = some (.ok (), { m with journal := n :: m.journal }) := rfl

/-- An operation that is followed by another: a failure of the first is the failure of both. -/
theorem exec_bind (op : SolveM W T α) (f : α → SolveM W T β) (m : Machine W T) :
    exec (op >>= f) m =
      match exec op m with
      | none => none
      | some (.ok a, m') => exec (f a) m'
      | some (.error e, m') => some (.error e, m') := by
  simp only [exec, ExceptT.run_bind, StateT.run_bind]
  cases h : StateT.run (ExceptT.run op) m with
  | error m' => rfl
  | ok p =>
    obtain ⟨r, m'⟩ := p
    cases r <;> rfl

/-- An attempt does not fail. -/
theorem exec_attempt (op : SolveM W T α) (m : Machine W T) :
    exec (attempt op) m = (exec op m).map fun p => (.ok p.1, p.2) := by
  simp only [exec, attempt, ExceptT.run_mk, StateT.run_bind]
  cases h : StateT.run (ExceptT.run op) m with
  | error m' => rfl
  | ok p => rfl

/-- A look-up changes nothing. -/
theorem exec_query (f : Solver W T → Except SolveError α) (m : Machine W T) :
    exec (query f) m = some (f m.solver, m) := by
  unfold query
  rw [exec_bind]
  change exec (match f m.solver with
    | .ok a => pure a
    | .error e => throw e) m = _
  cases f m.solver <;> rfl

/-- The variable with an identifier. -/
def getVariable (v : VarId) : SolveM W T (Variable T) := query (·.lookupVariable v)

/-- The constraint with an identifier. -/
def getConstraint (c : ConstraintId) : SolveM W T (Constraint W T) := query (·.lookupConstraint c)

/-- Change a variable, which must exist. -/
def changeVariable (v : VarId) (f : Variable T → Variable T) : SolveM W T Unit := do
  let _ ← getVariable v
  update (·.modifyVariable v f)

/-- Change a constraint, which must exist. -/
def changeConstraint (c : ConstraintId) (f : Constraint W T → Constraint W T) :
    SolveM W T Unit := do
  let _ ← getConstraint c
  update (·.modifyConstraint c f)

/-- Draw the mark of a new pass. -/
def nextMark : SolveM W T Mark := do
  update fun s => { s with passes := s.passes + 1 }
  ask (·.mark)

/-- Store a variable. -/
def storeVariable (x : Variable T) : SolveM W T VarId := do
  let (v, vars) ← query fun s => (s.vars.insert x).mapError .arena
  update fun s => { s with vars := vars }
  return v

/-- Store a constraint. -/
def storeConstraint (x : Constraint W T) : SolveM W T ConstraintId := do
  let (c, constraints) ← query fun s => (s.constraints.insert x).mapError .arena
  update fun s => { s with constraints := constraints }
  return c

end SolveM

end DeltaBlue
