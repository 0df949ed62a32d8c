import DeltaBlue.Proofs.Runs

/-!
# The course of a call

A call enables and disables, enabling adds, adding enforces and removes, and removing adds again. What
is said of every use of an inner operation is said of all the moments at which a call comes to it.
`Makes` relates the invocation of an operation to the invocations that it makes itself: there is one
rule for each place in the text of an operation at which another is called, and the premises of the
rule are what was executed before the place is come to. What happens in the course of a call is what is
reached from the call by `Makes`. That the rules leave no place out is `Invocation.returns_iff_made`.

Every operation relies on something when it is invoked: adding, for instance, on a sound graph in
which the constraint is idle, and enforcing moreover on the marks of the pass. `Operation.Admits` says
what this is, and whatever is made by an invocation that is admitted is admitted (`Makes.admits`). So
everything that happens in the course of a call on a sound graph is admitted, whether the call comes to
an end or not.
-/

namespace DeltaBlue

namespace Call

variable {W T : Type}

/-- What a call does to store the constraint that it enables. -/
def store? : Call W T → Option (SolveM W T ConstraintId)
  | constrain d => some (SolveM.insert d)
  | stay v strength => some (SolveM.insert (.stay strength v))
  | edit v value strength => some (SolveM.insert (.edit strength none v value))
  | observe inputs f => some (do SolveM.insertObserver (← SolveM.newUnassigned) inputs f)
  | _ => none

end Call

/-- An operation that may be invoked in the course of a call. -/
inductive Operation (W T : Type)
  /-- The call. -/
  | call (call : Call W T)
  /-- Enabling and disabling the constraint that a value is written through. -/
  | pulse (v : VarId) (c : ConstraintId)
  /-- Enabling a constraint, or removing it. -/
  | enableOrRemove (c : ConstraintId)
  /-- Disabling and discarding a constraint. -/
  | removeConstraint (c : ConstraintId)
  /-- Enabling the constraints of a list, after others. -/
  | enableMembers (cs done : List ConstraintId)
  /-- Disabling the constraints of a list, whatever comes of it. -/
  | undoMembers (cs : List ConstraintId)
  /-- Disabling the constraints of a list, after a failure or none. -/
  | disableMembers (cs : List ConstraintId) (failure : Option SolveError)
  /-- Enabling a constraint. -/
  | enable (c : ConstraintId)
  /-- Enforcing a constraint that has entered the graph, and taking this back if need be. -/
  | settle (c : ConstraintId)
  /-- Taking back the enabling of `c`, which has left `failed` without a method. -/
  | rollBackEnable (c failed : ConstraintId)
  /-- Adding `failed` again after the enabling of `c` was taken back. -/
  | restore (c failed : ConstraintId)
  /-- Disabling a constraint. -/
  | disable (c : ConstraintId)
  /-- Enforcing a constraint in a new pass, with whatever it displaces. -/
  | add (c : ConstraintId)
  /-- Enforcing a constraint in a pass, with whatever it displaces. -/
  | displace (mark : Mark) (steps : Nat) (c : ConstraintId)
  /-- Enforcing a constraint in a pass. -/
  | enforce (mark : Mark) (c : ConstraintId)
  /-- Taking a constraint out of the graph. -/
  | remove (c : ConstraintId)
  /-- Vacating a variable. -/
  | vacate (output : VarId)
  /-- Adding the stranded constraints of a list, after a failure or none. -/
  | readd (cs : List ConstraintId) (failure : Option SolveError)

/-- An operation with its fuel, at the machine on which it is carried out. -/
structure Invocation (W T : Type) where
  /-- The fuel. -/
  fuel : Nat
  /-- The operation. -/
  operation : Operation W T
  /-- The machine before it. -/
  machine : Machine W T

namespace SolveM

open Relation
open Solver (Sound Aside)

variable {W T : Type}

/-- The first failure, after one more result. -/
def firstFailure (failure : Option SolveError) : Except SolveError Unit → Option SolveError
  | .ok _ => failure
  | .error e => failure.or (some e)

/-- The first invocation makes the second. -/
inductive Makes : Invocation W T → Invocation W T → Prop
  /-- A constraint that a call has stored is enabled, or removed. -/
  | store {fuel : Nat} {call : Call W T} {store : SolveM W T ConstraintId} {c : ConstraintId}
    {m m' : Machine W T} (hstore : call.store? = some store)
    (hrun : exec store m = some (.ok c, m')) :
    Makes ⟨fuel, .call call, m⟩ ⟨fuel, .enableOrRemove c, m'⟩
  /-- A value is written through a constraint. -/
  | write {fuel : Nat} {v : VarId} {value : T} {x : Variable T} {c : ConstraintId}
    {m m' : Machine W T} (hx : m.solver.variableAt? v = some x)
    (hthrough : writesDirectly m.solver x = false)
    (hrun : exec (storeConstraint (writer m.solver v value)) m = some (.ok c, m')) :
    Makes ⟨fuel, .call (.write v value), m⟩ ⟨fuel, .pulse v c, m'⟩
  /-- A constraint is enabled by a call. -/
  | callEnable {fuel : Nat} {c : ConstraintId} {m : Machine W T} :
    Makes ⟨fuel, .call (.enable c), m⟩ ⟨fuel, .enable c, m⟩
  /-- A constraint is disabled by a call. -/
  | callDisable {fuel : Nat} {c : ConstraintId} {m : Machine W T} :
    Makes ⟨fuel, .call (.disable c), m⟩ ⟨fuel, .disable c, m⟩
  /-- A constraint is removed by a call. -/
  | callRemove {fuel : Nat} {c : ConstraintId} {m : Machine W T} :
    Makes ⟨fuel, .call (.removeConstraint c), m⟩ ⟨fuel, .removeConstraint c, m⟩
  /-- A group is enabled. -/
  | enableGroup {fuel : Nat} {g : Group} {m m' : Machine W T}
    (hrun : exec (note (.enablingGroup g.constraints.length)) m = some (.ok (), m')) :
    Makes ⟨fuel, .call (.enableGroup g), m⟩ ⟨fuel, .enableMembers g.constraints [], m'⟩
  /-- A group is disabled, the last member first. -/
  | disableGroup {fuel : Nat} {g : Group} {m m' : Machine W T}
    (hrun : exec (note (.disablingGroup g.constraints.length)) m = some (.ok (), m')) :
    Makes ⟨fuel, .call (.disableGroup g), m⟩
      ⟨fuel, .disableMembers g.constraints.reverse none, m'⟩
  /-- The constraint that a value is written through is enabled. -/
  | pulseEnable {fuel : Nat} {v : VarId} {c : ConstraintId} {m m' : Machine W T}
    (hrun : exec (do
      count fun x => { x with edits := x.edits + 1 }
      note (.writesThrough v c)) m = some (.ok (), m')) :
    Makes ⟨fuel, .pulse v c, m⟩ ⟨fuel, .enable c, m'⟩
  /-- Whatever has come of it, it is disabled. -/
  | pulseDisable {fuel : Nat} {v : VarId} {c : ConstraintId} {m m₁ m₂ : Machine W T}
    {r : Except SolveError Unit} (hrun : exec (do
      count fun x => { x with edits := x.edits + 1 }
      note (.writesThrough v c)) m = some (.ok (), m₁))
    (henable : exec (enable fuel c) m₁ = some (r, m₂)) :
    Makes ⟨fuel, .pulse v c, m⟩ ⟨fuel, .disable c, m₂⟩
  /-- A constraint that was stored is enabled. -/
  | tryEnable {fuel : Nat} {c : ConstraintId} {m : Machine W T} :
    Makes ⟨fuel, .enableOrRemove c, m⟩ ⟨fuel, .enable c, m⟩
  /-- This has failed, and the constraint is removed. -/
  | giveUp {fuel : Nat} {c : ConstraintId} {e : SolveError} {m m' : Machine W T}
    (henable : exec (enable fuel c) m = some (.error e, m')) :
    Makes ⟨fuel, .enableOrRemove c, m⟩ ⟨fuel, .removeConstraint c, m'⟩
  /-- A constraint that is to be removed is disabled. -/
  | switchOff {fuel : Nat} {c : ConstraintId} {m : Machine W T}
    (hlive : (m.solver.constraintAt? c).isSome) :
    Makes ⟨fuel, .removeConstraint c, m⟩ ⟨fuel, .disable c, m⟩
  /-- A member of a group is enabled already. -/
  | skipMember {fuel : Nat} {c : ConstraintId} {cs done : List ConstraintId} {m : Machine W T}
    (hen : m.solver.Enabled c) :
    Makes ⟨fuel, .enableMembers (c :: cs) done, m⟩ ⟨fuel, .enableMembers cs done, m⟩
  /-- A member of a group is enabled. -/
  | enableMember {fuel : Nat} {c : ConstraintId} {cs done : List ConstraintId}
    {node : Constraint W T} {m : Machine W T} (hnode : m.solver.constraintAt? c = some node)
    (hoff : node.enabled = false) :
    Makes ⟨fuel, .enableMembers (c :: cs) done, m⟩ ⟨fuel, .enable c, m⟩
  /-- The next members follow. -/
  | nextMember {fuel : Nat} {c : ConstraintId} {cs done : List ConstraintId}
    {node : Constraint W T} {m m' : Machine W T} (hnode : m.solver.constraintAt? c = some node)
    (hoff : node.enabled = false) (henable : exec (enable fuel c) m = some (.ok (), m')) :
    Makes ⟨fuel, .enableMembers (c :: cs) done, m⟩ ⟨fuel, .enableMembers cs (c :: done), m'⟩
  /-- A member could not be enabled, and those enabled before it are disabled. -/
  | undo {fuel : Nat} {c : ConstraintId} {cs done : List ConstraintId} {node : Constraint W T}
    {e : SolveError} {m m₁ m₂ : Machine W T} (hnode : m.solver.constraintAt? c = some node)
    (hoff : node.enabled = false) (henable : exec (enable fuel c) m = some (.error e, m₁))
    (hrun : exec (note (.memberFailed c e)) m₁ = some (.ok (), m₂)) :
    Makes ⟨fuel, .enableMembers (c :: cs) done, m⟩
      ⟨fuel, .undoMembers (if (m₁.solver.constraintAt? c).any (·.enabled) then c :: done
        else done), m₂⟩
  /-- A member that was enabled is disabled. -/
  | undoMember {fuel : Nat} {c : ConstraintId} {cs : List ConstraintId} {m : Machine W T} :
    Makes ⟨fuel, .undoMembers (c :: cs), m⟩ ⟨fuel, .disable c, m⟩
  /-- The next members follow. -/
  | undoNext {fuel : Nat} {c : ConstraintId} {cs : List ConstraintId} {m m' : Machine W T}
    (hrun : exec (do
      if let .error e := ← attempt (disable fuel c) then note (.memberUndoFailed c e)) m =
        some (.ok (), m')) :
    Makes ⟨fuel, .undoMembers (c :: cs), m⟩ ⟨fuel, .undoMembers cs, m'⟩
  /-- A member of a group is disabled. -/
  | disableMember {fuel : Nat} {c : ConstraintId} {cs : List ConstraintId}
    {failure : Option SolveError} {m : Machine W T} :
    Makes ⟨fuel, .disableMembers (c :: cs) failure, m⟩ ⟨fuel, .disable c, m⟩
  /-- The next members follow. -/
  | disableNext {fuel : Nat} {c : ConstraintId} {cs : List ConstraintId}
    {failure : Option SolveError} {r : Except SolveError Unit} {m m' : Machine W T}
    (hdisable : exec (disable fuel c) m = some (r, m')) :
    Makes ⟨fuel, .disableMembers (c :: cs) failure, m⟩
      ⟨fuel, .disableMembers cs (firstFailure failure r), m'⟩
  /-- A constraint has entered the graph and is settled. -/
  | settle {fuel : Nat} {c : ConstraintId} {node : Constraint W T} {m m' : Machine W T}
    (hnode : m.solver.constraintAt? c = some node) (hoff : node.enabled = false)
    (hrun : exec (enter c) m = some (.ok (), m')) :
    Makes ⟨fuel, .enable c, m⟩ ⟨fuel, .settle c, m'⟩
  /-- A constraint that has entered the graph is added. -/
  | settleAdd {fuel : Nat} {c : ConstraintId} {m : Machine W T} :
    Makes ⟨fuel, .settle c, m⟩ ⟨fuel, .add c, m⟩
  /-- This has left a required constraint without a method, and it is taken back. -/
  | rollBack {fuel : Nat} {c failed : ConstraintId} {m m' : Machine W T}
    (hadd : exec (add fuel c) m = some (.error (.unsatisfiableRequired failed), m')) :
    Makes ⟨fuel, .settle c, m⟩ ⟨fuel, .rollBackEnable c failed, m'⟩
  /-- The constraint is switched off again, and removed if it has a method in force. -/
  | rollBackRemove {fuel : Nat} {c failed : ConstraintId} {node : Constraint W T}
    {m m' : Machine W T} (hnode : m.solver.constraintAt? c = some node)
    (henf : node.isEnforcing = true) (hrun : exec (do
      note (.enableRolledBack failed c)
      changeConstraint c fun x => { x with enabled := false }) m = some (.ok (), m')) :
    Makes ⟨fuel, .rollBackEnable c failed, m⟩ ⟨fuel, .remove c, m'⟩
  /-- Then the constraint that was left without a method is looked at. -/
  | restore {fuel : Nat} {c failed : ConstraintId} {node : Constraint W T} {m m₁ m₂ : Machine W T}
    (hnode : m.solver.constraintAt? c = some node) (hrun : exec (do
      note (.enableRolledBack failed c)
      changeConstraint c fun x => { x with enabled := false }) m = some (.ok (), m₁))
    (hundo : exec (do
      if let .error e := ← attempt (if node.isEnforcing then remove fuel c else deregister c) then
        note (.rollbackFailed c e)) m₁ = some (.ok (), m₂)) :
    Makes ⟨fuel, .rollBackEnable c failed, m⟩ ⟨fuel, .restore c failed, m₂⟩
  /-- It is added if it still has no method. -/
  | restoreAdd {fuel : Nat} {c failed : ConstraintId} {m : Machine W T} (hne : failed ≠ c)
    (hidle : m.solver.Idle failed) :
    Makes ⟨fuel, .restore c failed, m⟩ ⟨fuel, .add failed, m⟩
  /-- A constraint is switched off and has a method in force, and is removed. -/
  | disableRemove {fuel : Nat} {c : ConstraintId} {node : Constraint W T} {m m' : Machine W T}
    (hnode : m.solver.constraintAt? c = some node) (hen : node.enabled = true)
    (henf : node.isEnforcing = true) (hrun : exec (do
      changeConstraint c fun x => { x with enabled := false }
      update fun s => { s with changes := s.changes + 1 }
      count fun x => { x with disables := x.disables + 1 }
      note (.disabling c)) m = some (.ok (), m')) :
    Makes ⟨fuel, .disable c, m⟩ ⟨fuel, .remove c, m'⟩
  /-- A pass begins. -/
  | pass {fuel : Nat} {c : ConstraintId} {mark : Mark} {m m' : Machine W T}
    (hrun : exec nextMark m = some (.ok mark, m')) :
    Makes ⟨fuel + 1, .add c, m⟩ ⟨fuel, .displace mark fuel c, m'⟩
  /-- A constraint is enforced in a pass. -/
  | enforce {fuel steps : Nat} {c : ConstraintId} {mark : Mark} {m : Machine W T} :
    Makes ⟨fuel, .displace mark (steps + 1) c, m⟩ ⟨fuel, .enforce mark c, m⟩
  /-- The constraint that was displaced follows. -/
  | displace {fuel steps : Nat} {c next : ConstraintId} {mark : Mark} {m m' : Machine W T}
    (henforce : exec (enforce (remove fuel) fuel mark c) m = some (.ok (some next), m')) :
    Makes ⟨fuel, .displace mark (steps + 1) c, m⟩ ⟨fuel, .displace mark steps next, m'⟩
  /-- The constraint that closes a cycle is switched off and removed. -/
  | breakCycle {fuel : Nat} {c closing : ConstraintId} {mark : Mark} {output claimed : VarId}
    {displaced : Option ConstraintId} {m m₁ m₂ m₃ : Machine W T}
    (hinstall : exec (install mark c) m = some (.ok (some (output, displaced)), m₁))
    (hsweep : exec (sweep mark fuel (.singleton c)) m₁ = some (.ok (some (closing, claimed)), m₂))
    (hrun : exec (do
      note (.cycleBroken closing claimed)
      count fun x => { x with cycles := x.cycles + 1 }
      changeConstraint closing fun x => { x with enabled := false }) m₂ = some (.ok (), m₃)) :
    Makes ⟨fuel, .enforce mark c, m⟩ ⟨fuel, .remove closing, m₃⟩
  /-- The output of a constraint that has departed is vacated. -/
  | vacate {fuel : Nat} {c : ConstraintId} {output : VarId} {m m' : Machine W T}
    (hrun : exec (depart c) m = some (.ok (some output), m')) :
    Makes ⟨fuel, .remove c, m⟩ ⟨fuel, .vacate output, m'⟩
  /-- What this has left stranded is added again. -/
  | readd {fuel : Nat} {c : ConstraintId} {output : VarId} {cs : List ConstraintId}
    {m m₁ m₂ : Machine W T} (hrun : exec (depart c) m = some (.ok (some output), m₁))
    (hvacate : exec (vacate fuel output) m₁ = some (.ok cs, m₂)) :
    Makes ⟨fuel, .remove c, m⟩ ⟨fuel, .readd cs none, m₂⟩
  /-- A stranded constraint is added. -/
  | readdAdd {fuel : Nat} {c : ConstraintId} {cs : List ConstraintId} {failure : Option SolveError}
    {m : Machine W T} (hidle : m.solver.Idle c) :
    Makes ⟨fuel, .readd (c :: cs) failure, m⟩ ⟨fuel, .add c, m⟩
  /-- The next ones follow. -/
  | readdNext {fuel : Nat} {c : ConstraintId} {cs : List ConstraintId}
    {failure : Option SolveError} {r : Except SolveError Unit} {m m' : Machine W T}
    (hidle : m.solver.Idle c) (hadd : exec (add fuel c) m = some (r, m')) :
    Makes ⟨fuel, .readd (c :: cs) failure, m⟩ ⟨fuel, .readd cs (firstFailure failure r), m'⟩
  /-- A constraint that is not idle any longer is passed over. -/
  | readdSkip {fuel : Nat} {c : ConstraintId} {cs : List ConstraintId}
    {failure : Option SolveError} {m : Machine W T} (hlive : (m.solver.constraintAt? c).isSome)
    (hidle : ¬ m.solver.Idle c) :
    Makes ⟨fuel, .readd (c :: cs) failure, m⟩ ⟨fuel, .readd cs failure, m⟩

/-! ## What an operation relies on -/

/-- The constraint has been switched off in a graph that its removal mends. -/
def Leaving (cells : Prop) (s : Solver W T) (c : ConstraintId) : Prop :=
  ∃ s₀ node, s₀.WellFormed ∧ SwitchedOff s₀ s c node ∧ s.passes = s₀.passes ∧
    (s₀.passes < 2 ^ 64 → s₀.Mendable cells node)

/-- A constraint has departed from a graph that its removal mends, and the variable is the output that
it had. -/
def Vacated (cells : Prop) (s : Solver W T) (output : VarId) : Prop :=
  ∃ s₀ c node, s₀.WellFormed ∧ Departed s₀ s c node ∧ node.output? = some output ∧
    s.passes = s₀.passes ∧ (s₀.passes < 2 ^ 64 → s₀.Mendable cells node)

end SolveM

open SolveM (Makes Leaving Vacated)

/-- What an operation relies on when it is invoked. -/
def Operation.Admits {W T : Type} (cells : Prop) (s : Solver W T) : Operation W T → Prop
  | .settle c | .add c => s.Sound cells ∧ s.Idle c
  | .displace mark _ c | .enforce mark c => s.Sound cells ∧ s.Idle c ∧
    (s.passes < 2 ^ 64 → s.InPass cells mark c)
  | .remove c => Leaving cells s c
  | .vacate output => Vacated cells s output
  | _ => s.Sound cells

namespace SolveM

open Relation

variable {W T : Type} {cells : Prop} {m m' : Machine W T} {fuel : Nat} {c : ConstraintId}

/-- Storing the constraint of a call leaves the graph sound. -/
theorem ensures_store {call : Call W T} {store : SolveM W T ConstraintId}
    (hstore : call.store? = some store) (h : m.solver.Sound cells) :
    Ensures store m fun _ m' => m'.solver.Sound cells := by
  have hinsert : ∀ d : Definition W T, Ensures (insert d) m fun _ m' => m'.solver.Sound cells :=
    fun d => (ensures_insert h).mono fun _ _ hr => hr.1.1
  cases call with
  | constrain d => exact Option.some.inj hstore ▸ hinsert d
  | stay v strength => exact Option.some.inj hstore ▸ hinsert _
  | edit v value strength => exact Option.some.inj hstore ▸ hinsert _
  | observe inputs f =>
    obtain rfl := Option.some.inj hstore
    rw [ensures_bind]
    refine (ensures_storeVariable ⟨rfl, rfl, rfl, rfl, rfl⟩ h).mono ?_
    rintro r m₁ ⟨⟨h₁, _⟩, hconstraints, hfree⟩
    cases r with
    | error e => exact h₁
    | ok sink =>
      refine (ensures_insertObserver h₁ fun {c node} hnode hmem => ?_).mono fun _ _ hr => hr.1.1
      -- a variable that did not exist is mentioned by no constraint
      rw [hconstraints] at hnode
      have hlive := h.mentioned hnode sink hmem
      rw [hfree sink rfl] at hlive
      cases hlive
  | _ => cases hstore

/-- The output that a constraint had when it departed exists. -/
theorem Vacated.live {output : VarId} (h : Vacated cells m.solver output) :
    ∃ x, m.solver.variableAt? output = some x := by
  obtain ⟨s, c, node, hwf, hd, hout, _⟩ := h
  obtain ⟨x, hx⟩ := Option.isSome_iff_exists.1
    (hwf.mentioned hd.before output (Constraint.mem_vars_of_output? hout))
  exact ⟨_, by rw [hd.variableAt, hx, Option.map_some]⟩

/-- Vacating the output of a constraint that has departed mends the graph. -/
theorem Vacated.sound {output : VarId} (h : Vacated cells m.solver output) :
    Ensures (vacate fuel output) m fun _ m' => m'.solver.Sound cells := by
  obtain ⟨x, hx⟩ := h.live
  obtain ⟨s, c, node, hwf, hd, hout, hp, hmend⟩ := h
  unfold vacate
  rw [ensures_bind]
  refine .changeVariable hx ?_
  simp only
  rw [ensures_bind]
  -- releasing the variable completes the departure, and the walk mends what is downstream
  refine (ensures_strandedFrom_sound
    (m := ⟨m.solver.modifyVariable output Variable.release, m.world, m.journal⟩)
    hwf (hd.released hout) hp hmend hout).mono ?_
  rintro r m₁ ⟨h₁, _⟩
  cases r with
  | ok found => exact (ensures_ask _).2 h₁
  | error e => exact h₁

/-- An attempt whose failure is only noted. -/
theorem ensures_noteFailure {op : SolveM W T Unit} {n : SolveError → Notice T}
    {P : Solver W T → Prop} (h : Ensures op m fun _ m' => P m'.solver) :
    Ensures (do if let .error e := ← attempt op then note (n e)) m fun _ m' => P m'.solver := by
  rw [ensures_bind, ensures_attempt]
  refine h.mono fun r m' hP => ?_
  cases r with
  | ok _ => exact (ensures_pure _).2 hP
  | error e => exact (ensures_note _).2 hP

/-- What the pulse of a constraint begins with. -/
theorem ensures_pulseOn (h : m.solver.Sound cells) (v : VarId) (c : ConstraintId) :
    Ensures (do
      count fun x => { x with edits := x.edits + 1 }
      note (.writesThrough v c)) m fun _ m' => m'.solver.Sound cells := by
  rw [ensures_bind, ensures_count, ensures_note]
  exact h.alike ⟨fun _ => rfl, fun _ => rfl, rfl, rfl⟩

/-- Switching a constraint off in a sound graph. -/
theorem leaving_of_switchedOff {s s' : Solver W T} {node : Constraint W T} (h : s.Sound cells)
    (hoff : SwitchedOff s s' c node) (hp : s'.passes = s.passes) : Leaving cells s' c :=
  ⟨s, node, h.toWellFormed, hoff, hp, fun hlt => (h.rest hlt).mendable node⟩

/-- What the taking back of an enabling begins with. -/
theorem ensures_takeBack {node : Constraint W T} (failed : ConstraintId)
    (hnode : m.solver.constraintAt? c = some node) :
    Ensures (do
      note (.enableRolledBack failed c)
      changeConstraint c fun x => { x with enabled := false }) m fun _ m' =>
        SwitchedOff m.solver m'.solver c node ∧ m'.solver.passes = m.solver.passes := by
  rw [ensures_bind, ensures_note]
  exact .changeConstraint hnode ⟨switchedOff_modifyConstraint hnode, rfl⟩

/-- What disabling begins with. -/
theorem ensures_switchOff {node : Constraint W T} (hnode : m.solver.constraintAt? c = some node) :
    Ensures (do
      changeConstraint c fun x => { x with enabled := false }
      update fun s => { s with changes := s.changes + 1 }
      count fun x => { x with disables := x.disables + 1 }
      note (.disabling c)) m fun _ m' =>
        SwitchedOff m.solver m'.solver c node ∧ m'.solver.passes = m.solver.passes := by
  rw [ensures_bind]
  refine .changeConstraint hnode ?_
  simp only [ensures_bind, ensures_update, ensures_count, ensures_note]
  exact ⟨⟨hnode, (switchedOff_modifyConstraint hnode).constraintAt, fun _ => rfl⟩, rfl⟩

/-- What a pass begins with. -/
theorem ensures_nextMark (h : m.solver.Sound cells) (hidle : m.solver.Idle c) :
    Ensures nextMark m fun r m' => ∀ mark, r = .ok mark → m'.solver.Sound cells ∧
      m'.solver.Idle c ∧ (m'.solver.passes < 2 ^ 64 → m'.solver.InPass cells mark c) := by
  unfold nextMark
  simp only [ensures_bind, ensures_update, ensures_ask]
  intro mark hmark
  -- a new mark is carried by nothing, so the pass begins with nothing claimed
  obtain rfl := Except.ok.inj hmark
  exact ⟨h.nextPass, hidle, fun hlt => h.inPass hlt c⟩

/-- What the breaking of a cycle begins with: the constraint that closes it is switched off in a graph
that its removal mends. -/
theorem leaving_of_sweep {mark : Mark} {closing : ConstraintId} {output claimed : VarId}
    {displaced : Option ConstraintId} {m₁ m₂ : Machine W T} (h : m.solver.WellFormed)
    (hidle : m.solver.Idle c) (hpass : m.solver.passes < 2 ^ 64 → m.solver.InPass cells mark c)
    (hinstall : exec (install mark c) m = some (.ok (some (output, displaced)), m₁))
    (hsweep : exec (sweep mark fuel (.singleton c)) m₁ = some (.ok (some (closing, claimed)), m₂)) :
    Ensures (expel closing claimed) m₂ fun r m₃ => r = .ok () → Leaving cells m₃.solver closing := by
  obtain ⟨node, i, x, method, hi, rfl, rfl, hp₁⟩ := installed_of_exec h hidle hinstall
  have hr := sweep_repaints mark fuel _ m₁ _ m₂ hsweep
  have h₂ := (h.installed hi).repaints hr
  have hp₂ : m₂.solver.passes = m.solver.passes := hr.passes.trans hp₁
  refine (ensures_expel closing claimed).mono ?_
  rintro _ m₃ (⟨_, ⟨e, rfl⟩, _⟩ | ⟨n, hn, rfl, hoff, hp₃⟩) hok
  · cases hok
  · refine ⟨m₂.solver, n, h₂, hoff, hp₃, fun hlt => ?_⟩
    -- the sweep has stopped at a claimed variable, so what it has left undone is downstream of
    -- there
    have hpass := hpass (hp₂ ▸ hlt)
    obtain ⟨hw, hswept⟩ := ensures_sweep_installed h hi hpass.settled _ m₂ hsweep
    exact hpass.mendable hi h hp₁ hw hn hswept

/-- A constraint that departs vacates its output. -/
theorem Leaving.vacated {output : VarId} (h : Leaving cells m.solver c)
    (hrun : exec (depart c) m = some (.ok (some output), m')) : Vacated cells m'.solver output := by
  obtain ⟨s, node, hwf, hoff, hp, hmend⟩ := h
  obtain ⟨hout, hd, hp₁⟩ := ensures_depart hoff _ m' hrun
  exact ⟨s, c, node, hwf, hd, (Except.ok.inj hout).symm, hp₁.trans hp, hmend⟩

/-- What is made by an invocation that is admitted is admitted. -/
theorem Makes.admits {i j : Invocation W T} (h : Makes i j)
    (hi : i.operation.Admits cells i.machine.solver) :
    j.operation.Admits cells j.machine.solver := by
  cases h with
  | store hstore hrun => exact ensures_store hstore hi _ _ hrun
  | write hx hthrough hrun =>
    refine (ensures_storeConstraint rfl rfl (fun u hu => ?_) hi _ _ hrun).1.1
    rw [eq_of_mem_writer hu, hx]
    rfl
  | callEnable => exact hi
  | callDisable => exact hi
  | callRemove => exact hi
  | enableGroup hrun =>
    obtain ⟨_, rfl⟩ := Prod.mk.inj (Option.some.inj hrun)
    exact hi
  | disableGroup hrun =>
    obtain ⟨_, rfl⟩ := Prod.mk.inj (Option.some.inj hrun)
    exact hi
  | pulseEnable hrun => exact ensures_pulseOn hi _ _ _ _ hrun
  | pulseDisable hrun henable =>
    exact (enable_keeps _ _ _ (ensures_pulseOn hi _ _ _ _ hrun) _ _ henable).1
  | tryEnable => exact hi
  | giveUp henable => exact (enable_keeps _ _ _ hi _ _ henable).1
  | switchOff => exact hi
  | skipMember hen => exact hi
  | enableMember hnode hoff => exact hi
  | nextMember hnode hoff henable => exact (enable_keeps _ _ _ hi _ _ henable).1
  | undo hnode hoff henable hrun =>
    obtain ⟨_, rfl⟩ := Prod.mk.inj (Option.some.inj hrun)
    exact (enable_keeps _ _ _ hi _ _ henable).1
  | undoMember => exact hi
  | @undoNext fuel c _ m _ hrun =>
    have hdisable := (disable_keeps fuel c m hi).mono fun _ _ hk => hk.1
    exact ensures_noteFailure hdisable _ _ hrun
  | disableMember => exact hi
  | disableNext hdisable => exact (disable_keeps _ _ _ hi _ _ hdisable).1
  | settle hnode hoff hrun =>
    obtain ⟨_, h', he, _⟩ := ensures_enter hi hnode hoff _ _ hrun
    exact ⟨h', he.idle⟩
  | settleAdd => exact hi
  | rollBack hadd => exact add_sound cells _ _ _ hi.1 hi.2 _ _ hadd
  | rollBackRemove hnode henf hrun =>
    obtain ⟨hoff, hp⟩ := ensures_takeBack _ hnode _ _ hrun
    exact leaving_of_switchedOff hi hoff hp
  -- taking the constraint out again leaves the graph sound, whether this fails or not
  | restore hnode hrun hundo =>
    obtain ⟨hoff, hp⟩ := ensures_takeBack _ hnode _ _ hrun
    exact ensures_noteFailure (ensures_leave hi hoff hp) _ _ hundo
  | restoreAdd hne hidle => exact ⟨hi, hidle⟩
  | disableRemove hnode hen henf hrun =>
    obtain ⟨hoff, hp⟩ := ensures_switchOff hnode _ _ hrun
    exact leaving_of_switchedOff hi hoff hp
  | pass hrun => exact ensures_nextMark hi.1 hi.2 _ _ hrun _ rfl
  | enforce => exact hi
  -- enforcing hands on what it has displaced in the condition in which it was found itself
  | @displace fuel _ _ _ _ _ _ henforce =>
    obtain ⟨h, hidle, hpass⟩ := hi
    obtain ⟨h', hnext⟩ := ensures_enforce (ensures_withdraw_sound (add_sound cells fuel) fuel)
      h.toWellFormed hidle hpass _ _ henforce
    exact ⟨h', hnext _ rfl⟩
  | breakCycle hinstall hsweep hrun =>
    obtain ⟨h, hidle, hpass⟩ := hi
    exact leaving_of_sweep h.toWellFormed hidle hpass hinstall hsweep _ _ hrun rfl
  | vacate hrun => exact Leaving.vacated hi hrun
  | readd hrun hvacate => exact (Leaving.vacated hi hrun).sound _ _ hvacate
  | readdAdd hidle => exact ⟨hi, hidle⟩
  | readdNext hidle hadd => exact add_sound cells _ _ _ hi hidle _ _ hadd
  | readdSkip hlive hidle => exact hi

/-- Whatever is made in the course of an invocation that is admitted is admitted. -/
theorem admits_of_makes {i j : Invocation W T} (h : ReflTransGen Makes i j)
    (hi : i.operation.Admits cells i.machine.solver) :
    j.operation.Admits cells j.machine.solver := by
  -- along the invocations, each of which is admitted by the one that makes it
  induction h with
  | refl => exact hi
  | tail _ hmakes ih => exact hmakes.admits ih

end SolveM

namespace Run

open Relation

variable {W T : Type} {own : Prop} {config : Config} {plans : List (Plan × Nat)}
  {m : Machine W T}

/-- Whatever is invoked in the course of a call is admitted. -/
theorem admits (h : Run own config plans m) {fuel : Nat} {call : Call W T} {j : Invocation W T}
    (hmade : ReflTransGen SolveM.Makes ⟨fuel, .call call, m⟩ j) :
    j.operation.Admits own j.machine.solver :=
  SolveM.admits_of_makes hmade h.sound.1

end Run

end DeltaBlue
