import DeltaBlue.SolveError

/-!
# Notices

The solver keeps a journal of what it does. Each entry is a notice with a level and a text. The
notice of a run also holds what the method was given, which its text leaves out.
-/

namespace DeltaBlue

/-- How much attention a notice deserves. -/
inductive Level
  | warn
  | debug
  | trace
  deriving DecidableEq

/-- The name of a level in the journal. -/
def Level.name : Level → String
  | warn => "WARN"
  | debug => "DEBUG"
  | trace => "TRACE"

/-- One entry of the journal. -/
inductive Notice (T : Type)
  /-- A cycle was closed at `output`, and `c` is disabled to break it. -/
  | cycleBroken (c : ConstraintId) (output : VarId)
  /-- Enabling `c` left the required `failed` without a method. -/
  | enableRolledBack (failed c : ConstraintId)
  /-- Taking `c` back failed. -/
  | rollbackFailed (c : ConstraintId) (error : SolveError)
  /-- Enforcing `c` again after a rollback failed. -/
  | restoreFailed (c : ConstraintId) (error : SolveError)
  /-- Removing `c`, which could not be enabled, failed. -/
  | cleanupFailed (c : ConstraintId) (error : SolveError)
  /-- A member of a group could not be enabled. -/
  | memberFailed (c : ConstraintId) (error : SolveError)
  /-- A member of a group could not be disabled again. -/
  | memberUndoFailed (c : ConstraintId) (error : SolveError)
  /-- A value was written directly. -/
  | wroteDirectly (v : VarId)
  /-- A value is written through an edit constraint. -/
  | writesThrough (v : VarId) (edit : ConstraintId)
  /-- A constraint joins the graph. -/
  | enabling (c : ConstraintId)
  /-- A constraint leaves the graph. -/
  | disabling (c : ConstraintId)
  /-- A constraint was removed. -/
  | removed (c : ConstraintId)
  /-- A plan was built. -/
  | planned (steps : Nat) (generation : Generation)
  /-- A group of constraints joins the graph. -/
  | enablingGroup (members : Nat)
  /-- A group of constraints leaves the graph. -/
  | disablingGroup (members : Nat)
  /-- A constraint found no method that it may use. -/
  | leftUnenforced (c : ConstraintId)
  /-- A constraint takes its output from another. -/
  | retracts (c other : ConstraintId) (output : VarId)
  /-- A constraint determines its output. -/
  | enforces (c : ConstraintId) (output : VarId)
  /-- A constraint gives its output up. -/
  | releases (c : ConstraintId) (output : VarId)
  /-- A run poisoned its output. -/
  | poisons (c : ConstraintId) (output : VarId) (cause : FormulaError)
  /-- A method was run on the values of its inputs, or failed for want of them. -/
  | executed (c : ConstraintId) (output : VarId) (inputs : Except FormulaError (List T))

namespace Notice

variable {T : Type}

/-- The level of a notice. -/
def level : Notice T → Level
  | cycleBroken .. | enableRolledBack .. | rollbackFailed .. | restoreFailed .. | cleanupFailed ..
  | memberFailed .. | memberUndoFailed .. => .warn
  | wroteDirectly .. | writesThrough .. | enabling .. | disabling .. | removed .. | planned ..
  | enablingGroup .. | disablingGroup .. => .debug
  | leftUnenforced .. | retracts .. | enforces .. | releases .. | poisons .. | executed .. => .trace

/-- The text of a notice. -/
def text : Notice T → String
  | cycleBroken c output => s!"cycle through {c} at {output}; disabling it"
  | enableRolledBack failed c => s!"{failed} cannot be satisfied; rolling back enable of {c}"
  | rollbackFailed c error => s!"rolling back {c}: {error.message}"
  | restoreFailed c error => s!"re-enforcing {c} after rollback: {error.message}"
  | cleanupFailed c error => s!"removing failed constraint {c}: {error.message}"
  | memberFailed c error => s!"enabling group member {c} failed: {error.message}; rolling back"
  | memberUndoFailed c error => s!"disabling {c} during rollback: {error.message}"
  | wroteDirectly v => s!"wrote {v} directly"
  | writesThrough v edit => s!"writing {v} through edit {edit}"
  | enabling c => s!"enabling {c}"
  | disabling c => s!"disabling {c}"
  | removed c => s!"removed {c}"
  | planned steps generation => s!"planned {steps} step(s) at generation {generation}"
  | enablingGroup members => s!"enabling group of {members} constraint(s)"
  | disablingGroup members => s!"disabling group of {members} constraint(s)"
  | leftUnenforced c => s!"{c} left unenforced"
  | retracts c other output => s!"{c} retracts {other} from {output}"
  | enforces c output => s!"{c} enforces {output}"
  | releases c output => s!"{c} releases {output}"
  | poisons c output cause => s!"{c} poisons {output}: {cause.message}"
  | executed c output _ => s!"executed {c} into {output}"

/-- The line of a notice in the journal. -/
def line (n : Notice T) : String := s!"{n.level.name} {n.text}"

end Notice

end DeltaBlue
