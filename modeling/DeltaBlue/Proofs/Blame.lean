import DeltaBlue.Proofs.Conservation

/-!
# What failures name

Two kinds of failure name a constraint that had a part in them: a required constraint has no method,
or a cycle was closed. Look-ups fail without naming any (`Blameless`).

A failure that names a cycle names a constraint that is no longer part of the graph: the constraint is
switched off before it is named, and after that nothing is switched on that was off, whichever way the
failure takes out of the operation. It may be thrown on, kept while other constraints are added, or
handed out after the operation has cleaned up. `SolveM.Truthful` says this of an operation, and
`SolveM.Relays e` of what an operation does with a failure `e` that it was handed.
-/

namespace DeltaBlue

/-- The constraint that had a part in the failure. -/
def SolveError.blamed? : SolveError → Option ConstraintId
  | unsatisfiableRequired c | cycleDetected c => some c
  | _ => none

/-- If the look-up fails, the failure names no constraint that had a part in it. -/
def Blameless {α : Type} (x : Except SolveError α) : Prop := ∀ e, x = .error e → e.blamed? = none

namespace Blameless

variable {α β : Type}

/-- A look-up that succeeds blames nobody. -/
theorem ok (a : α) : Blameless (.ok a) := nofun

/-- If neither of two look-ups blames anybody, then nor do both together. -/
theorem bind {x : Except SolveError α} {f : α → Except SolveError β} (hx : Blameless x)
    (hf : ∀ a, Blameless (f a)) : Blameless (x >>= f) := by
  cases x with
  | ok a => exact hf a
  -- the failure of the first is the failure of both
  | error e => rintro _ ⟨⟩; exact hx e rfl

/-- A loop of blameless look-ups is blameless. -/
theorem foldlM {f : β → α → Except SolveError β} (hf : ∀ b a, Blameless (f b a)) (l : List α)
    (b : β) : Blameless (l.foldlM f b) := by
  induction l generalizing b with
  | nil => exact .ok b
  | cons a l ih => exact .bind (hf b a) ih

end Blameless

namespace Solver

variable {W T : Type} (s : Solver W T)

/-- A variable that does not exist is no constraint. -/
theorem lookupVariable_blameless (v : VarId) : Blameless (s.lookupVariable v) := by
  unfold lookupVariable
  cases s.variableAt? v with
  | some x => exact .ok x
  | none => rintro _ ⟨⟩; rfl

/-- A constraint that does not exist had no part in anything. -/
theorem lookupConstraint_blameless (c : ConstraintId) : Blameless (s.lookupConstraint c) := by
  unfold lookupConstraint
  cases s.constraintAt? c with
  | some x => exact .ok x
  | none => rintro _ ⟨⟩; rfl

/-- To compute a walk strength other variables are looked up. -/
theorem walkStrengthOf_blameless (d : Definition W T) (output : VarId) :
    Blameless (s.walkStrengthOf d output) := by
  refine .foldlM (fun walk x => ?_) _ _
  split
  · exact .ok _
  · exact .bind (s.lookupVariable_blameless _) fun _ => .ok _

/-- To compute a constancy other variables are looked up. -/
theorem constancyOf_blameless (d : Definition W T) (output : VarId) :
    Blameless (s.constancyOf d output) := by
  refine .foldlM (fun constant v => ?_) _ _
  split
  · exact .ok _
  · exact .bind (s.lookupVariable_blameless _) fun _ => .ok _

/-- To gather values variables are looked up. A poisoned one is no failure of the look-up. -/
theorem gather_blameless (vs : List VarId) : Blameless (s.gather vs) := by
  induction vs with
  | nil => exact .ok _
  | cons v vs ih =>
    refine .bind (s.lookupVariable_blameless v) fun x => ?_
    cases x.cell with
    | poisoned cause => exact .ok _
    | unassigned => exact .ok _
    | assigned value => exact .bind ih fun _ => .ok _

/-- To choose a method the outputs are looked up. That none may be used is not a failure yet. -/
theorem weakestMethod_blameless (mark : Mark) (d : Definition W T) :
    Blameless (s.weakestMethod mark d) := by
  unfold weakestMethod
  -- by induction on the methods, whatever was chosen so far
  generalize d.strength = bound
  generalize 0 = i
  generalize (none : Option Nat) = chosen
  induction d.methods generalizing i bound chosen with
  | nil => exact .ok _
  | cons x xs ih =>
    refine .bind (s.lookupVariable_blameless _) fun y => ?_
    split
    · exact ih _ _ _
    · exact ih _ _ _

/-- Nothing is enabled that was not. -/
def Wanes (s s' : Solver W T) : Prop := ∀ k, s'.Enabled k → s.Enabled k

/-- What the failure says about a cycle holds: the constraint is not part of the graph. -/
def BearsOut (s : Solver W T) (e : SolveError) : Prop := ∀ k, e = .cycleDetected k → ¬ s.Enabled k

/-- Enabling nothing twice is enabling nothing. -/
theorem Wanes.transitive : SolveM.Transitive (Wanes (W := W) (T := T)) where
  refl _ _ := id
  trans h h' k hk := h k (h' k hk)

variable {s} {s' : Solver W T} {e : SolveError} {c : ConstraintId}

/-- A constraint that is off stays off where nothing is enabled. -/
theorem BearsOut.wanes (h : s.BearsOut e) (hw : s.Wanes s') : s'.BearsOut e :=
  fun k hk hen => h k hk (hw k hen)

/-- A failure that names no constraint says nothing about a cycle. -/
theorem bearsOut_of_blamed?_eq_none (h : e.blamed? = none) : s.BearsOut e := by
  rintro k rfl
  cases h

/-- That a required constraint has no method says nothing about a cycle. -/
theorem bearsOut_unsatisfiable (k : ConstraintId) : s.BearsOut (.unsatisfiableRequired k) := nofun

/-- A constraint that was switched off is not part of the graph. -/
theorem not_enabled_switchOff (c : ConstraintId) (s : Solver W T) :
    ¬ (s.modifyConstraint c fun x => { x with enabled := false }).Enabled c := by
  rintro ⟨node, hnode, hen⟩
  rw [constraintAt?_modifyConstraint, if_pos rfl] at hnode
  obtain ⟨x, _, rfl⟩ := Option.map_eq_some_iff.1 hnode
  cases hen

/-- Forgetting a constraint enables none. -/
theorem wanes_eraseConstraint (c : ConstraintId) (s : Solver W T) :
    s.Wanes { s with constraints := s.constraints.erase c } := by
  rintro k ⟨node, hnode, hen⟩
  rw [constraintAt?, Arena.get?_erase] at hnode
  by_cases hk : k = c
  · rw [if_pos hk] at hnode
    cases hnode
  · rw [if_neg hk] at hnode
    exact ⟨node, hnode, hen⟩

end Solver

namespace SolveM

open Solver (Propagates Wanes)

variable {W T α β : Type}

/-- No step of disabling enables anything. -/
theorem wanes_frame (c : ConstraintId) : LeaveFrame (W := W) (T := T) c Wanes where
  toPassFrame := propagates_frame.mono Wanes.transitive fun h => h.enabled
  onLeave s := (Solver.propagates_switchOff c s).enabled
  onChange _ _ := id

/-- Whatever failure the operation ends in, what it says about a cycle holds then. -/
def Truthful (op : SolveM W T α) : Prop :=
  ∀ m, Ensures op m fun r m' => ∀ e, r = .error e → m'.solver.BearsOut e

/-- If what the failure `e` says about a cycle holds before the operation, then the same can be said
of the failure that the operation ends in. -/
def Relays (e : SolveError) (op : SolveM W T α) : Prop :=
  ∀ m, m.solver.BearsOut e → Ensures op m fun r m' => ∀ e', r = .error e' → m'.solver.BearsOut e'

namespace Truthful

/-- An operation that is truthful is so whatever it was handed. -/
theorem relays {op : SolveM W T α} (h : Truthful op) (e : SolveError) : Relays e op :=
  fun m _ => h m

/-- An operation that does not fail says nothing untrue. -/
theorem of_ok {op : SolveM W T α} (h : ∀ m, Ensures op m fun r _ => ∃ a, r = .ok a) :
    Truthful op := by
  intro m
  refine (h m).mono ?_
  rintro _ m' ⟨a, rfl⟩
  exact nofun

/-- Returning a value does not fail. -/
theorem pure (a : α) : Truthful (pure a : SolveM W T α) :=
  .of_ok fun _ => (ensures_pure a).2 ⟨a, rfl⟩

/-- A failure that is always borne out may be thrown. -/
theorem throw {e : SolveError} (h : ∀ s : Solver W T, s.BearsOut e) :
    Truthful (throw e : SolveM W T α) := by
  intro m
  rw [ensures_throw]
  rintro _ ⟨⟩
  exact h m.solver

/-- What does not finish does not fail. -/
theorem unfinished : Truthful (unfinished : SolveM W T α) := fun _ => ensures_unfinished

/-- A blameless look-up is truthful. -/
theorem query {f : Solver W T → Except SolveError α} (hf : ∀ s, Blameless (f s)) :
    Truthful (query f) := by
  intro m
  rw [ensures_query]
  intro e he
  exact Solver.bearsOut_of_blamed?_eq_none (hf m.solver e he)

/-- A look-up does not fail. -/
theorem ask (f : Solver W T → α) : Truthful (ask f) :=
  .of_ok fun _ => (ensures_ask f).2 ⟨_, rfl⟩

/-- A change of the solver does not fail. -/
theorem update (f : Solver W T → Solver W T) : Truthful (update f) :=
  .of_ok fun _ => (ensures_update f).2 ⟨_, rfl⟩

/-- Writing into the journal does not fail. -/
theorem note (n : Notice T) : Truthful (W := W) (note n) :=
  .of_ok fun _ => (ensures_note n).2 ⟨_, rfl⟩

/-- Counting does not fail. -/
theorem count (f : Metrics → Metrics) : Truthful (W := W) (T := T) (count f) := .update _

/-- Running a method does not fail: the failure of a formula is an outcome. -/
theorem runOn (x : Method W T) (values : Except FormulaError (List T)) :
    Truthful (runOn x values) := by
  refine .of_ok fun m => ?_
  rw [ensures_runOn]
  cases values with
  | error cause => exact ⟨_, rfl⟩
  | ok values => exact ⟨_, rfl⟩

/-- Looking a variable up is truthful. -/
theorem getVariable (v : VarId) : Truthful (W := W) (T := T) (getVariable v) :=
  .query fun s => s.lookupVariable_blameless v

/-- Looking a constraint up is truthful. -/
theorem getConstraint (c : ConstraintId) : Truthful (W := W) (T := T) (getConstraint c) :=
  .query fun s => s.lookupConstraint_blameless c

/-- Two truthful operations, one after the other. -/
theorem bind {op : SolveM W T α} {f : α → SolveM W T β} (hop : Truthful op)
    (hf : ∀ a, Truthful (f a)) : Truthful (op >>= f) := by
  intro m
  rw [ensures_bind]
  refine (hop m).mono fun r m₁ h₁ => ?_
  cases r with
  | ok a => exact hf a m₁
  | error e =>
    rintro _ ⟨⟩
    exact h₁ e rfl

/-- An attempt does not fail. -/
theorem attempted (op : SolveM W T α) : Truthful (SolveM.attempt op) :=
  .of_ok fun _ => (ensures_attempt op).2 fun r _ _ => ⟨r, rfl⟩

/-- The failure of an attempt is handed to what follows. -/
theorem attempt {op : SolveM W T α} {f : Except SolveError α → SolveM W T β}
    (hop : Truthful op) (hok : ∀ a, Truthful (f (.ok a))) (herror : ∀ e, Relays e (f (.error e))) :
    Truthful (attempt op >>= f) := by
  intro m
  rw [ensures_bind, ensures_attempt]
  refine (hop m).mono fun r m₁ h₁ => ?_
  cases r with
  | ok a => exact hok a m₁
  | error e => exact herror e m₁ (h₁ e rfl)

/-- Changing a variable fails at most because there is none. -/
theorem changeVariable (v : VarId) (f : Variable T → Variable T) :
    Truthful (W := W) (changeVariable v f) :=
  .bind (.getVariable v) fun _ => .update _

/-- Changing a constraint fails at most because there is none. -/
theorem changeConstraint (c : ConstraintId) (f : Constraint W T → Constraint W T) :
    Truthful (changeConstraint c f) :=
  .bind (.getConstraint c) fun _ => .update _

/-- A loop is truthful if its rounds are. -/
theorem forM {l : List β} {f : β → SolveM W T PUnit} (hf : ∀ b, Truthful (f b)) :
    Truthful (l.forM f) := by
  induction l with
  | nil => exact .pure _
  | cons b l ih => exact .bind (hf b) fun _ => ih

end Truthful

namespace Relays

variable {e : SolveError}

/-- The failure that was handed over is thrown on. -/
theorem throw : Relays e (throw e : SolveM W T α) := by
  intro m h
  rw [ensures_throw]
  rintro _ ⟨⟩
  exact h

/-- The failure that was handed over is the result. -/
theorem query : Relays e (query fun _ => .error e : SolveM W T α) := by
  intro m h
  rw [ensures_query]
  rintro _ ⟨⟩
  exact h

/-- The failure is kept while something is done that enables nothing. -/
theorem bind {op : SolveM W T α} {f : α → SolveM W T β} (hop : Truthful op)
    (hwanes : Obeys Wanes op) (hf : ∀ a, Relays e (f a)) : Relays e (op >>= f) := by
  intro m h
  rw [ensures_bind]
  refine ((hop m).and (hwanes m)).mono ?_
  rintro r m₁ ⟨h₁, hw⟩
  cases r with
  | ok a => exact hf a m₁ (h.wanes hw)
  -- if what is done in the meantime fails, its own failure comes out
  | error e₁ =>
    rintro _ ⟨⟩
    exact h₁ e₁ rfl

/-- The failure is kept while a notice is written. -/
theorem note {n : Notice T} {f : Unit → SolveM W T β} (hf : ∀ a, Relays e (f a)) :
    Relays e (note n >>= f) :=
  .bind (.note n) (.note Wanes.transitive n) hf

/-- The failure is kept through an attempt at something that enables nothing. -/
theorem attempt {op : SolveM W T α} {f : Except SolveError α → SolveM W T β}
    (hwanes : Obeys Wanes op) (hf : ∀ r, Relays e (f r)) : Relays e (attempt op >>= f) :=
  .bind (.attempted op) (.attempt hwanes) hf

end Relays

/-! ## Adding and removing -/

/-- Executing a method fails only where a look-up does. -/
theorem execute_truthful (c : ConstraintId) (i : Nat) :
    Truthful (W := W) (T := T) (execute c i) := by
  unfold execute
  refine .bind (.getConstraint c) fun node => ?_
  cases node.definition.method? i with
  | none => exact .pure _
  | some x =>
    refine .bind (.query fun s => s.gather_blameless x.inputs) fun inputs => ?_
    refine .bind (.runOn x inputs) fun outcome => .bind (.count _) fun _ => ?_
    refine .bind (.getVariable _) fun _ => ?_
    cases outcome with
    | assign value => exact .bind (.changeVariable _ _) fun _ => .note _
    | keep => exact .note _
    | fail cause =>
      refine .bind (.note _) fun _ => .bind (.count _) fun _ => ?_
      exact .bind (.changeVariable _ _) fun _ => .note _

/-- Recalculating a constraint fails only where a look-up does. -/
theorem recalculate_truthful (c : ConstraintId) :
    Truthful (W := W) (T := T) (recalculate c) := by
  unfold recalculate
  refine .bind (.getConstraint c) fun node => ?_
  split
  · refine .bind (.query fun s => s.walkStrengthOf_blameless _ _) fun walk => ?_
    refine .bind (.query fun s => s.constancyOf_blameless _ _) fun constant => ?_
    refine .bind (.changeVariable _ _) fun _ => ?_
    split
    · exact execute_truthful c _
    · exact .pure _
  · exact .pure _

/-- A sweep fails only where a look-up does. That it comes back to a claimed variable is its
result. -/
theorem sweep_truthful (mark : Mark) (fuel : Nat) (todo : OrderedSet ConstraintId) :
    Truthful (W := W) (T := T) (sweep mark fuel todo) := by
  induction fuel generalizing todo with
  | zero => exact .unfinished
  | succ fuel ih =>
    unfold sweep
    split
    · exact .pure _
    · refine .bind (.getConstraint _) fun node => ?_
      split
      · exact ih _
      · refine .bind (.getVariable _) fun x => ?_
        split
        · exact .pure _
        · refine .bind (recalculate_truthful _) fun _ => .bind (.getVariable _) fun x => ?_
          exact .bind (.ask _) fun _ => ih _

/-- Bringing constraints up to date fails only where a look-up does. -/
theorem refresh_truthful (cs : List ConstraintId) (todo : OrderedSet VarId) :
    Truthful (W := W) (T := T) (refresh cs todo) := by
  induction cs generalizing todo with
  | nil => exact .pure _
  | cons c cs ih =>
    unfold refresh
    refine .bind (recalculate_truthful c) fun _ => .bind (.getConstraint c) fun node => ?_
    split
    · exact ih _
    · exact ih _

/-- A walk downstream fails only where a look-up does. -/
theorem strandedFrom_truthful (fuel : Nat) (todo : OrderedSet VarId)
    (found : OrderedSet ConstraintId) :
    Truthful (W := W) (T := T) (strandedFrom fuel todo found) := by
  induction fuel generalizing todo found with
  | zero => exact .unfinished
  | succ fuel ih =>
    unfold strandedFrom
    split
    · exact .pure _
    · refine .bind (.getVariable _) fun x => .bind (.ask _) fun s => ?_
      exact .bind (refresh_truthful _ _) fun _ => ih _ _

/-- Entering a constraint at its variables fails only where a look-up does. -/
theorem register_truthful (c : ConstraintId) : Truthful (W := W) (T := T) (register c) :=
  .bind (.getConstraint c) fun _ => .forM fun v => .changeVariable v _

/-- Taking a constraint off its variables fails only if there is no such constraint. -/
theorem deregister_truthful (c : ConstraintId) : Truthful (W := W) (T := T) (deregister c) :=
  .bind (.getConstraint c) fun _ => .forM fun _ => .update _

/-- Seizing an output fails only where a look-up does. -/
theorem seize_truthful (c : ConstraintId) (output : VarId) :
    Truthful (W := W) (T := T) (seize c output) := by
  unfold seize
  refine .bind (.getVariable _) fun x => ?_
  cases x.determinedBy with
  | none =>
    refine .bind (.changeVariable _ _) fun _ => .bind (.count _) fun _ => ?_
    exact .bind (.note _) fun _ => .pure _
  | some other =>
    refine .bind (.changeConstraint _ _) fun _ => .bind (.count _) fun _ => ?_
    refine .bind (.note _) fun _ => .bind (.changeVariable _ _) fun _ => ?_
    exact .bind (.count _) fun _ => .bind (.note _) fun _ => .pure _

/-- Installing fails where a look-up does, or because a required constraint finds no method. -/
theorem install_truthful (mark : Mark) (c : ConstraintId) :
    Truthful (W := W) (T := T) (install mark c) := by
  unfold install
  refine .bind (.getConstraint c) fun node => ?_
  refine .bind (.query fun s => s.weakestMethod_blameless mark node.definition) fun chosen => ?_
  refine .bind (.changeConstraint _ _) fun _ => ?_
  split
  · split
    · refine .bind (.count _) fun _ => .bind (.throw fun _ => Solver.bearsOut_unsatisfiable _) fun _ => ?_
      exact .bind (.note _) fun _ => .pure _
    · exact .bind (.note _) fun _ => .pure _
  · refine .bind (.forM fun v => .changeVariable v _) fun _ => ?_
    exact .bind (seize_truthful c _) fun _ => .pure _

section

variable {remove add : ConstraintId → SolveM W T Unit}

/-- The constraint that closes a cycle is switched off and removed, and then named. -/
theorem breakCycle_truthful (hremove : ∀ c, Truthful (remove c))
    (hwanes : ∀ c, Obeys Wanes (remove c)) (closing : ConstraintId) :
    Truthful (changeConstraint closing (fun x => { x with enabled := false }) >>= fun _ =>
      remove closing >>= fun _ => throw (α := α) (.cycleDetected closing)) := by
  intro m
  rw [ensures_bind, ensures_changeConstraint]
  cases m.solver.constraintAt? closing with
  | none =>
    rintro _ ⟨⟩
    exact Solver.bearsOut_of_blamed?_eq_none rfl
  | some node =>
    simp only [ensures_bind]
    refine ((hremove closing _).and (hwanes closing _)).mono ?_
    rintro r m' ⟨h', hw⟩
    cases r with
    | ok _ =>
      rw [ensures_throw]
      rintro _ ⟨⟩ k hk hen
      obtain rfl := SolveError.cycleDetected.inj hk
      -- it was switched off before it was removed, and the removal has enabled nothing
      exact Solver.not_enabled_switchOff closing m.solver (hw closing hen)
    | error e =>
      rintro _ ⟨⟩
      exact h' e rfl

/-- Enforcing a constraint names a cycle only after it has broken it. -/
theorem enforce_truthful (hremove : ∀ c, Truthful (remove c))
    (hwanes : ∀ c, Obeys Wanes (remove c)) (fuel : Nat) (mark : Mark) (c : ConstraintId) :
    Truthful (enforce remove fuel mark c) := by
  unfold enforce
  refine .bind (install_truthful mark c) fun installed => ?_
  split
  · exact .pure _
  · refine .bind (sweep_truthful _ _ _) fun closed => ?_
    split
    · exact .bind (.note _) fun _ => .bind (.count _) fun _ =>
        breakCycle_truthful hremove hwanes _
    · exact .bind (.changeVariable _ _) fun _ => .pure _

/-- Along a chain of displacements every failure is truthful. -/
theorem displace_truthful (hremove : ∀ c, Truthful (remove c))
    (hwanes : ∀ c, Obeys Wanes (remove c)) (fuel : Nat) (mark : Mark) (steps : Nat)
    (c : ConstraintId) : Truthful (displace remove fuel mark steps c) := by
  induction steps generalizing c with
  | zero => exact .unfinished
  | succ steps ih =>
    unfold displace
    refine .bind (enforce_truthful hremove hwanes fuel mark c) fun displaced => ?_
    split
    · exact .pure _
    · exact ih _

/-- While constraints are added, a failure that was kept stays true, since adding enables nothing. -/
theorem readd_relays (hwanes : ∀ c, Obeys Wanes (add c))
    (cs : List ConstraintId) (e : SolveError) : Relays e (readd add cs (some e)) := by
  have hT := Wanes.transitive (W := W) (T := T)
  induction cs with
  | nil => exact .throw
  | cons c cs ih =>
    unfold readd
    refine .bind (.getConstraint c) (.getConstraint hT c) fun node => ?_
    split
    · refine .attempt (hwanes c) fun r => ?_
      cases r with
      | ok _ => exact ih
      | error _ => exact ih
    · exact ih

/-- Constraints are added one by one, and the first failure comes out in the end. -/
theorem readd_truthful (hadd : ∀ c, Truthful (add c)) (hwanes : ∀ c, Obeys Wanes (add c))
    (cs : List ConstraintId) : Truthful (readd add cs none) := by
  induction cs with
  | nil => exact .pure _
  | cons c cs ih =>
    unfold readd
    refine .bind (.getConstraint c) fun node => ?_
    split
    · -- from the first failure on there is one to keep
      exact .attempt (hadd c) (fun _ => ih) fun e => readd_relays hwanes cs e
    · exact ih

/-- Withdrawing a constraint fails where a look-up does or where adding others again does. -/
theorem withdraw_truthful (hadd : ∀ c, Truthful (add c)) (hwanes : ∀ c, Obeys Wanes (add c))
    (fuel : Nat) (c : ConstraintId) : Truthful (withdraw add fuel c) := by
  unfold withdraw
  refine .bind (.getConstraint c) fun node => .bind (.changeConstraint _ _) fun _ => ?_
  refine .bind (deregister_truthful c) fun _ => ?_
  split
  · exact .pure _
  · refine .bind (.note _) fun _ => .bind ?_ fun cs => readd_truthful hadd hwanes cs
    refine .bind (.changeVariable _ _) fun _ => ?_
    exact .bind (strandedFrom_truthful _ _ _) fun _ => .ask _

end

/-- Adding enables nothing. -/
theorem add_wanes (fuel : Nat) (c : ConstraintId) : Obeys (W := W) (T := T) Wanes (add fuel c) :=
  add_obeys (wanes_frame c).toPassFrame fuel c

/-- Removing enables nothing. -/
theorem remove_wanes (fuel : Nat) (c : ConstraintId) :
    Obeys (W := W) (T := T) Wanes (remove fuel c) :=
  remove_obeys (wanes_frame c).toPassFrame fuel c

/-- Adding a constraint is truthful. -/
theorem add_truthful (fuel : Nat) (c : ConstraintId) : Truthful (W := W) (T := T) (add fuel c) := by
  -- by induction on the fuel: the removals that adding calls add with less
  induction fuel generalizing c with
  | zero => exact .unfinished
  | succ fuel ih =>
    refine .bind (.bind (.update _) fun _ => .ask _) fun mark => ?_
    exact displace_truthful (fun k => withdraw_truthful ih (add_wanes fuel) fuel k)
      (remove_wanes fuel) fuel mark fuel c

/-- Removing a constraint is truthful. -/
theorem remove_truthful (fuel : Nat) (c : ConstraintId) :
    Truthful (W := W) (T := T) (remove fuel c) :=
  withdraw_truthful (add_truthful fuel) (add_wanes fuel) fuel c

/-! ## Enabling and disabling -/

/-- A constraint that leaves the graph is removed or deregistered, and both are truthful. -/
theorem leave_truthful (fuel : Nat) (c : ConstraintId) (node : Constraint W T) :
    Truthful (W := W) (T := T) (if node.isEnforcing then remove fuel c else deregister c) := by
  split
  · exact remove_truthful fuel c
  · exact deregister_truthful c

/-- A failure on the way back is only noted; what comes out is that a required constraint has no
method. -/
theorem rollBackEnable_truthful (fuel : Nat) (c failed : ConstraintId) :
    Truthful (W := W) (T := T) (rollBackEnable fuel c failed) := by
  have hrestore : Truthful (W := W) (T := T) (restore fuel c failed) := by
    refine .bind (.ask _) fun stranded => ?_
    split
    · refine .bind (.attempted _) fun r => ?_
      cases r with
      | ok _ => exact .pure _
      | error e => exact .note _
    · exact .pure _
  unfold rollBackEnable
  refine .bind (.note _) fun _ => .bind (.ask _) fun found => ?_
  cases found with
  | none => exact .pure _
  | some node =>
    refine .bind (.changeConstraint _ _) fun _ => .bind (.attempted _) fun undo => ?_
    cases undo with
    | ok _ => exact hrestore
    | error e => exact .bind (.note _) fun _ => hrestore

/-- Settling a constraint hands out the failure of adding it. -/
theorem settle_truthful (fuel : Nat) (c : ConstraintId) :
    Truthful (W := W) (T := T) (settle fuel c) := by
  refine .attempt (add_truthful fuel c) (fun _ => .pure _) fun e => ?_
  -- only the failure of a required constraint is followed by a way back
  cases e with
  | unsatisfiableRequired failed =>
    exact ((rollBackEnable_truthful fuel c failed).bind fun _ =>
      .throw fun _ => Solver.bearsOut_unsatisfiable _).relays _
  | _ => exact .throw

/-- Enabling a constraint is truthful. -/
theorem enable_truthful (fuel : Nat) (c : ConstraintId) :
    Truthful (W := W) (T := T) (enable fuel c) := by
  rw [enable_eq]
  refine .bind (.getConstraint c) fun node => ?_
  split
  · exact .pure _
  · refine .bind (.bind (.changeConstraint _ _) fun _ => .bind (register_truthful c) fun _ => ?_)
      fun _ => settle_truthful fuel c
    exact .bind (.update _) fun _ => .bind (.count _) fun _ => .note _

/-- Disabling a constraint is truthful. -/
theorem disable_truthful (fuel : Nat) (c : ConstraintId) :
    Truthful (W := W) (T := T) (disable fuel c) := by
  unfold disable
  refine .bind (.getConstraint c) fun node => ?_
  split
  · exact .pure _
  · refine .bind (.changeConstraint _ _) fun _ => .bind (.update _) fun _ => ?_
    exact .bind (.count _) fun _ => .bind (.note _) fun _ => leave_truthful fuel c node

/-- Disabling enables nothing. -/
theorem disable_wanes (fuel : Nat) (c : ConstraintId) :
    Obeys (W := W) (T := T) Wanes (disable fuel c) :=
  disable_obeys (wanes_frame c) fuel

/-! ## Constraints and variables -/

/-- Discarding a constraint enables none. -/
theorem discard_wanes (c : ConstraintId) : Obeys (W := W) (T := T) Wanes (discard c) := by
  refine .update fun s => ?_
  cases (s.constraintAt? c).bind Constraint.sink with
  | none => exact Solver.wanes_eraseConstraint c s
  | some sink => exact Solver.wanes_eraseConstraint c s

/-- Removing a constraint for good enables none. -/
theorem removeConstraint_wanes (fuel : Nat) (c : ConstraintId) :
    Obeys (W := W) (T := T) Wanes (removeConstraint fuel c) :=
  removeConstraint_obeys (wanes_frame c) (discard_wanes c) fuel

/-- Making a variable fails only for want of space. -/
theorem storeVariable_truthful (x : Variable T) : Truthful (W := W) (storeVariable x) := by
  refine .bind (.query fun s e he => ?_) fun _ => .bind (.update _) fun _ => .pure _
  cases hins : s.vars.insert x with
  | ok p => rw [hins] at he; cases he
  | error cause => rw [hins] at he; cases he; rfl

/-- Storing a constraint fails only for want of space. -/
theorem storeConstraint_truthful (x : Constraint W T) : Truthful (storeConstraint x) := by
  refine .bind (.query fun s e he => ?_) fun _ => .bind (.update _) fun _ => .pure _
  cases hins : s.constraints.insert x with
  | ok p => rw [hins] at he; cases he
  | error cause => rw [hins] at he; cases he; rfl

/-- A declaration that is refused names no cycle. -/
theorem declare_truthful (strength : Strength) (parts : List (Registration W T)) :
    Truthful (declare strength parts) := by
  unfold declare ofBuild
  refine .query fun _ e he => ?_
  cases hdefine : Draft.define strength parts with
  | ok d => rw [hdefine] at he; cases he
  | error cause => rw [hdefine] at he; cases he; rfl

/-- Making a constraint fails because a variable does not exist or for want of space. -/
theorem insert_truthful (d : Definition W T) : Truthful (insert d) :=
  .bind (.forM fun v => .bind (.getVariable v) fun _ => .pure _) fun _ => storeConstraint_truthful _

/-- The failure to disable a constraint is handed out after the constraint has been discarded. -/
theorem removeConstraint_truthful (fuel : Nat) (c : ConstraintId) :
    Truthful (W := W) (T := T) (removeConstraint fuel c) := by
  have hT := Wanes.transitive (W := W) (T := T)
  refine .bind (.getConstraint c) fun _ => .attempt (disable_truthful fuel c) (fun _ => ?_) fun e => ?_
  · exact .bind (.update _) fun _ => .bind (.note _) fun _ => .query fun _ _ => nofun
  · exact .bind (.update _) (discard_wanes c) fun _ => .note fun _ => .query

/-- The failure to enable a constraint is handed out after the constraint has been removed. -/
theorem enableOrRemove_truthful (fuel : Nat) (c : ConstraintId) :
    Truthful (W := W) (T := T) (enableOrRemove fuel c) := by
  refine .attempt (enable_truthful fuel c) (fun _ => .pure _) fun e => ?_
  refine .attempt (removeConstraint_wanes fuel c) fun cleanup => ?_
  -- a failure of the removal is noted, and the first failure stays the result
  cases cleanup with
  | ok _ => exact .throw
  | error _ => exact .note fun _ => .throw

/-- Making and enabling a constraint is truthful. -/
theorem constrain_truthful (fuel : Nat) (d : Definition W T) : Truthful (constrain fuel d) :=
  .bind (insert_truthful d) fun c => enableOrRemove_truthful fuel c

/-- Making and enabling an observer is truthful. If it cannot be made, its sink is forgotten
first. -/
theorem observe_truthful (fuel : Nat) (inputs : List VarId) (f : Observe W T) :
    Truthful (observe fuel inputs f) := by
  have hT := Wanes.transitive (W := W) (T := T)
  refine .bind (storeVariable_truthful _) fun sink => .attempt ?_ (fun c => ?_) fun e => ?_
  · refine .bind (.ask _) fun strength => .bind (declare_truthful strength _) fun d => ?_
    exact .bind (insert_truthful d) fun c => .bind (.changeConstraint _ _) fun _ => .pure _
  · exact enableOrRemove_truthful fuel c
  · exact .bind (.update _) (.update fun _ _ => id) fun _ => .throw

/-- The failure to enable the edit is handed out after the edit has been disabled and forgotten. -/
theorem write_truthful (fuel : Nat) (v : VarId) (value : T) :
    Truthful (W := W) (write fuel v value) := by
  have hforget : ∀ c, Obeys (W := W) (T := T) Wanes
      (update fun s => { s with constraints := s.constraints.erase c }) := fun c =>
    .update (Solver.wanes_eraseConstraint c)
  refine .bind (.getVariable v) fun x => .bind (.ask _) fun direct => ?_
  split
  · exact .bind (.changeVariable v _) fun _ => .bind (.count _) fun _ => .note _
  · refine .bind (.ask _) fun strength => .bind (storeConstraint_truthful _) fun c => ?_
    refine .bind (.count _) fun _ => .bind (.note _) fun _ => ?_
    refine .attempt (enable_truthful fuel c) (fun _ => ?_) fun e => ?_
    · refine .attempt (disable_truthful fuel c) (fun _ => ?_) fun e => ?_
      · exact .bind (.update _) fun _ => .bind (.query fun _ _ => nofun) fun _ =>
          .query fun _ _ => nofun
      · refine .bind (.update _) (hforget c) fun _ => ?_
        exact .bind (.query fun _ _ => nofun) (.query Wanes.transitive _) fun _ => .query
    · -- enabling has failed, and the edit is disabled and forgotten whether or not this succeeds
      refine .attempt (disable_wanes fuel c) fun cleanup => ?_
      refine .bind (.update _) (hforget c) fun _ m h => ?_
      rw [ensures_bind, ensures_query]
      rintro _ ⟨⟩
      exact h

/-! ## Groups -/

/-- Disabling members again does not fail. What goes wrong is noted. -/
theorem undoMembers_truthful (fuel : Nat) (cs : List ConstraintId) :
    Truthful (W := W) (T := T) (undoMembers fuel cs) := by
  induction cs with
  | nil => exact .pure _
  | cons c cs ih =>
    refine .bind (.attempted _) fun r => ?_
    cases r with
    | ok _ => exact ih
    | error e => exact .bind (.note _) fun _ => ih

/-- Disabling members again enables nothing. -/
theorem undoMembers_wanes (fuel : Nat) (cs : List ConstraintId) :
    Obeys (W := W) (T := T) Wanes (undoMembers fuel cs) := by
  have hT := Wanes.transitive (W := W) (T := T)
  induction cs with
  | nil => exact .pure hT _
  | cons c cs ih =>
    refine .bind hT (.attempt (disable_wanes fuel c)) fun r => ?_
    cases r with
    | ok _ => exact ih
    | error e => exact .bind hT (.note hT _) fun _ => ih

/-- The failure to enable a member is handed out after the others have been disabled again. -/
theorem enableMembers_truthful (fuel : Nat) (cs done : List ConstraintId) :
    Truthful (W := W) (T := T) (enableMembers fuel cs done) := by
  have hT := Wanes.transitive (W := W) (T := T)
  induction cs generalizing done with
  | nil => exact .pure _
  | cons c cs ih =>
    unfold enableMembers
    refine .bind (.getConstraint c) fun node => ?_
    split
    · exact ih done
    · refine .attempt (enable_truthful fuel c) (fun _ => ih _) fun e => ?_
      refine .bind (.ask _) (.ask hT _) fun stays => .note fun _ => ?_
      exact .bind (undoMembers_truthful fuel _) (undoMembers_wanes fuel _) fun _ => .throw

/-- A failure is kept while the other members are disabled. -/
theorem disableMembers_relays (fuel : Nat) (cs : List ConstraintId) (e : SolveError) :
    Relays (W := W) (T := T) e (disableMembers fuel cs (some e)) := by
  induction cs with
  | nil => exact .throw
  | cons c cs ih =>
    refine .attempt (disable_wanes fuel c) fun r => ?_
    cases r with
    | ok _ => exact ih
    | error _ => exact ih

/-- Disabling a group hands out the first failure to disable a member. -/
theorem disableMembers_truthful (fuel : Nat) (cs : List ConstraintId) :
    Truthful (W := W) (T := T) (disableMembers fuel cs none) := by
  induction cs with
  | nil => exact .pure _
  | cons c cs ih =>
    exact .attempt (disable_truthful fuel c) (fun _ => ih) fun e => disableMembers_relays fuel cs e

end SolveM

end DeltaBlue
