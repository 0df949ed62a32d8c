import DeltaBlue.Draft
import DeltaBlue.Session.World
import DeltaBlue.Text.Quoted

/-!
# Trying out a draft

A draft can be described in one line; a definition can be renamed repeatedly, and its methods can be
run one by one outside of a solver.
-/

namespace DeltaBlue

/-- The description of a draft in one line. -/
def Draft.summary {W T : Type} (d : Draft W T) : String :=
  let label := match d.label with
    | some text => s!"Some({Text.quote text})"
    | none => "None"
  s!"ConstraintBuilder \x7b strength: {d.strength.name.capitalize}, volatile: {d.volatile}, " ++
    s!"label: {label}, methods: {d.size} \x7d"

namespace Definition

variable {W T : Type}

/-- Rename a definition by each renaming of a list in turn. A renaming that is refused is passed
over. Gives the result of each and the definition at the end. -/
def substituteEach (d : Definition W T) :
    List (VarId → VarId) → List (Except BuildError (Definition W T)) × Definition W T
  | [] => ([], d)
  | f :: rest =>
    let result := d.substitute f
    let (results, last) := (result.toOption.getD d).substituteEach rest
    (result :: results, last)

end Definition

/-- A run of one method: its index, the values, and whether the number of values goes unchecked. -/
structure Trial (T : Type) where
  /-- The index of the method. -/
  method : Nat
  /-- The values it is run on. -/
  values : List T
  /-- Whether a computation is called with any number of values. -/
  raw : Bool

/-- Run methods of a definition in order. Each run of a method that exists gives its outcome and the
calls recorded in it. -/
def Trial.runAll {T : Type} (d : Definition (World T) T) :
    List (Trial T) → World T → List (Option (Outcome T × List (Event T)))
  | [], _ => []
  | t :: rest, w =>
    match d.method? t.method with
    | none => none :: runAll d rest w
    | some m =>
      let w := { w with events := [] }
      let (outcome, w) := if t.raw then m.call t.values w else m.run t.values w
      some (outcome, w.events.reverse) :: runAll d rest w

end DeltaBlue
