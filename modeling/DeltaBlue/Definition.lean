import DeltaBlue.Method
import DeltaBlue.OrderedSet
import DeltaBlue.Strength

/-!
# Constraint definitions

A definition is what a constraint declares: a strength, whether its methods must be run again on
request (a volatile constraint), a label, and one method for each variable that the constraint can
determine. A constraint with several methods is a relation that each of them solves for another
variable, so each method mentions every variable of the relation. The rules are part of the type.
-/

namespace DeltaBlue

/-- Why a declaration was refused. -/
inductive BuildError
  /-- No method was declared. -/
  | emptyConstraint
  /-- Two methods determine one variable. -/
  | duplicateOutput (output : VarId)
  /-- A method reads the variable that it determines. -/
  | inputIsOutput (output : VarId)
  /-- A method lists an input twice. -/
  | duplicateInput (output input : VarId)
  /-- A copying method has more inputs than it can copy. -/
  | arityMismatch (output : VarId) (expected found : Nat)
  /-- A method leaves out a variable of the relation. -/
  | disconnectedFormula (output missing : VarId)
  deriving DecidableEq

/-- The message of a declaration error. -/
def BuildError.message : BuildError → String
  | emptyConstraint => "constraint declares no formulas"
  | duplicateOutput output => s!"variable {output} declared as output more than once"
  | inputIsOutput output => s!"formula for {output} reads its own output"
  | duplicateInput output input => s!"formula for {output} lists input {input} twice"
  | arityMismatch output expected found =>
    s!"formula for {output} accepts at most {expected} inputs, {found} given"
  | disconnectedFormula output missing =>
    s!"formula for {output} does not involve {missing}; " ++
      "every formula must relate all variables of the constraint"

/-- The variables that a list of methods mentions, in order of first mention. -/
def mentioned {W T : Type} (methods : List (Method W T)) : OrderedSet VarId :=
  OrderedSet.ofList (methods.flatMap Method.vars)

/-- What is mentioned is what one of the methods mentions. -/
theorem mem_mentioned {W T : Type} {methods : List (Method W T)} {v : VarId} :
    v ∈ mentioned methods ↔ ∃ m ∈ methods, v ∈ m.vars := by
  rw [mentioned, OrderedSet.mem_ofList, List.mem_flatMap]

/-- What a constraint declares. -/
structure Definition (W T : Type) where
  /-- How strongly the constraint insists on being satisfied. -/
  strength : Strength
  /-- Whether its output may change without a change of the graph. -/
  volatile : Bool
  /-- A label for diagnostics. -/
  label : Option String
  /-- The ways to satisfy it, in order of declaration. -/
  methods : List (Method W T)
  /-- There is a way to satisfy it. -/
  nonempty : methods ≠ []
  /-- No two methods determine one variable. -/
  outputs_nodup : (methods.map Method.output).Nodup
  /-- No method reads its output or lists an input twice. -/
  proper : ∀ m ∈ methods, m.Proper
  /-- Every method mentions every variable of the constraint. -/
  covers : ∀ m ∈ methods, ∀ v ∈ mentioned methods, v ∈ m.vars

namespace Definition

variable {W T : Type}

/-- The variables of a constraint, in order of first mention. -/
def vars (d : Definition W T) : List VarId := (mentioned d.methods).toList

/-- The method at an index, if there is one. -/
def method? (d : Definition W T) (i : Nat) : Option (Method W T) := d.methods[i]?

/-- The definition with one method. -/
def ofMethod (strength : Strength) (label : Option String) (m : Method W T) (h : m.Proper) :
    Definition W T where
  strength := strength
  volatile := false
  label := label
  methods := [m]
  nonempty := by simp
  outputs_nodup := by simp
  proper := by simpa using h
  covers := by
    intro m' hm v hv
    rw [List.mem_singleton.1 hm]
    simpa [mentioned, OrderedSet.mem_ofList] using hv

/-- The constraint that holds `v` at a constant. -/
def edit (strength : Strength) (label : Option String) (v : VarId) (value : T) :
    Definition W T :=
  ofMethod strength label (Method.edit v value) (Method.edit_proper v value)

/-- The constraint that keeps `v` as it is. -/
def stay (strength : Strength) (v : VarId) : Definition W T :=
  ofMethod strength none (Method.stay v) (Method.stay_proper v)

end Definition

end DeltaBlue
