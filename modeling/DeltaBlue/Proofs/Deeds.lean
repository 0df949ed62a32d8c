import DeltaBlue.Proofs.Settling

/-!
# Deeds

The journal tells which methods were put in force and which were run, on which values and in which
order. These are the deeds of a machine. Two operations do any: to install a method puts it in force,
and to recalculate a constraint whose output is constant runs the method in force, which may change the
world outside. Every other step of an operation `Abstains`: it does no deed and leaves the world alone.

The ledger gives the latest deed that concerns each constraint.
-/

namespace DeltaBlue

/-- Whether a deed puts a method of the constraint in force or runs one. -/
def Notice.concerns {T : Type} (c : ConstraintId) : Notice T → Bool
  | .enforces k _ | .executed k _ _ => k = c
  | _ => false

/-- The latest deed that concerns each constraint, if there is one. -/
abbrev Ledger (T : Type) := ConstraintId → Option (Notice T)

namespace Machine

variable {W T : Type} {m m' m'' : Machine W T}

/-- The ledger of the deeds done so far. -/
def ledger (m : Machine W T) : Ledger T := fun c => m.deeds.find? (Notice.concerns c)

/-- A deed becomes the latest of the constraint that it concerns. -/
theorem ledger_of_concerns {n : Notice T} {c : ConstraintId} (hdeeds : m'.deeds = n :: m.deeds)
    (hn : n.concerns c = true) : m'.ledger c = some n := by
  rw [ledger, hdeeds, List.find?_cons_of_pos hn]

/-- A deed that does not concern a constraint is not entered for it. -/
theorem ledger_of_not_concerns {n : Notice T} {c : ConstraintId} (hdeeds : m'.deeds = n :: m.deeds)
    (hn : n.concerns c = false) : m'.ledger c = m.ledger c := by
  rw [ledger, hdeeds, List.find?_cons_of_neg (by rw [hn]; exact Bool.false_ne_true), ledger]

/-- No deed was done, and the world was left alone. -/
structure NoDeed (m m' : Machine W T) : Prop where
  /-- The world is the same. -/
  world : m'.world = m.world
  /-- The deeds are the same. -/
  deeds : m'.deeds = m.deeds

/-- Where nothing happens no deed is done. -/
theorem NoDeed.refl (m : Machine W T) : m.NoDeed m := ⟨rfl, rfl⟩

/-- No deed is done in two parts of which neither does one. -/
theorem NoDeed.trans (h : m.NoDeed m') (h' : m'.NoDeed m'') : m.NoDeed m'' :=
  ⟨h'.world.trans h.world, h'.deeds.trans h.deeds⟩

/-- A notice that tells of no deed. -/
theorem NoDeed.note {n : Notice T} (hn : n.isDeed = false) :
    m.NoDeed { m with journal := n :: m.journal } :=
  ⟨rfl, List.filter_cons_of_neg (Bool.eq_false_iff.1 hn)⟩

/-- Without a deed the ledger is as before. -/
theorem NoDeed.ledger (h : m.NoDeed m') : m'.ledger = m.ledger := by
  unfold Machine.ledger
  rw [h.deeds]

end Machine

namespace SolveM

open Machine (NoDeed)

variable {W T α β : Type}

/-- The operation puts no method in force and runs none. -/
def Abstains (op : SolveM W T α) : Prop := ∀ m, Ensures op m fun _ m' => m.NoDeed m'

namespace Abstains

/-- Returning a value is no deed. -/
theorem pure (a : α) : Abstains (pure a : SolveM W T α) := fun m => (ensures_pure a).2 (.refl m)

/-- Failing is no deed. -/
theorem throw (e : SolveError) : Abstains (throw e : SolveM W T α) :=
  fun m => (ensures_throw e).2 (.refl m)

/-- A look-up that may fail is no deed. -/
theorem query (f : Solver W T → Except SolveError α) : Abstains (query f) :=
  fun m => (ensures_query f).2 (.refl m)

/-- A look-up is no deed. -/
theorem ask (f : Solver W T → α) : Abstains (ask f) := fun m => (ensures_ask f).2 (.refl m)

/-- A change of the solver is no deed. The deeds are in the journal. -/
theorem update (f : Solver W T → Solver W T) : Abstains (update f) :=
  fun _ => (ensures_update f).2 ⟨rfl, rfl⟩

/-- Counting is no deed. -/
theorem count (f : Metrics → Metrics) : Abstains (W := W) (T := T) (count f) := update _

/-- A notice that tells of no deed. -/
theorem note {n : Notice T} (hn : n.isDeed = false) : Abstains (W := W) (note n) :=
  fun _ => (ensures_note n).2 (.note hn)

/-- Looking a variable up is no deed. -/
theorem getVariable (v : VarId) : Abstains (W := W) (T := T) (getVariable v) := query _

/-- Looking a constraint up is no deed. -/
theorem getConstraint (c : ConstraintId) : Abstains (W := W) (T := T) (getConstraint c) := query _

/-- Two operations that abstain, one after the other. -/
theorem bind {op : SolveM W T α} {f : α → SolveM W T β} (hop : Abstains op)
    (hf : ∀ a, Abstains (f a)) : Abstains (op >>= f) := by
  intro m
  rw [ensures_bind]
  refine (hop m).mono fun r m' hsame => ?_
  cases r with
  | ok a => exact (hf a m').mono fun _ _ h => hsame.trans h
  | error e => exact hsame

/-- Changing a variable is no deed. -/
theorem changeVariable (v : VarId) (f : Variable T → Variable T) :
    Abstains (W := W) (changeVariable v f) :=
  bind (getVariable v) fun _ => update _

/-- Changing a constraint is no deed. -/
theorem changeConstraint (c : ConstraintId) (f : Constraint W T → Constraint W T) :
    Abstains (changeConstraint c f) :=
  bind (getConstraint c) fun _ => update _

/-- A loop abstains if its rounds do. -/
theorem forM {l : List β} {f : β → SolveM W T PUnit} (hf : ∀ b, Abstains (f b)) :
    Abstains (l.forM f) := by
  induction l with
  | nil => exact pure _
  | cons b l ih => exact bind (hf b) fun _ => ih

end Abstains

/-! ## Operations that abstain -/

/-- Entering a constraint at its variables puts nothing in force. -/
theorem register_abstains (c : ConstraintId) : Abstains (W := W) (T := T) (register c) :=
  .bind (.getConstraint c) fun _ => .forM fun v => .changeVariable v _

/-- Taking a constraint off its variables runs nothing. -/
theorem deregister_abstains (c : ConstraintId) : Abstains (W := W) (T := T) (deregister c) :=
  .bind (.getConstraint c) fun _ => .forM fun _ => .update _

/-- Beginning a pass is no deed. -/
theorem nextMark_abstains : Abstains (W := W) (T := T) nextMark := .bind (.update _) fun _ => .ask _

/-- Making a variable is no deed. -/
theorem storeVariable_abstains (x : Variable T) : Abstains (W := W) (storeVariable x) :=
  .bind (.query _) fun _ => .bind (.update _) fun _ => .pure _

/-- Storing a constraint is no deed, since it is not enabled. -/
theorem storeConstraint_abstains (x : Constraint W T) : Abstains (storeConstraint x) :=
  .bind (.query _) fun _ => .bind (.update _) fun _ => .pure _

/-- Writing a cell directly runs nothing. -/
theorem writeDirectly_abstains (v : VarId) (value : T) :
    Abstains (W := W) (writeDirectly v value) :=
  .bind (.changeVariable v _) fun _ => .bind (.count _) fun _ => .note rfl

/-- Making a constraint is no deed. -/
theorem insert_abstains (d : Definition W T) : Abstains (insert d) :=
  .bind (.forM fun v => .bind (.getVariable v) fun _ => .pure _) fun _ => storeConstraint_abstains _

/-- Making an observer does not run it. -/
theorem insertObserver_abstains (sink : VarId) (inputs : List VarId) (f : Observe W T) :
    Abstains (insertObserver sink inputs f) :=
  .bind (.ask _) fun _ => .bind (show Abstains (ofBuild _) from .query _) fun _ =>
    .bind (insert_abstains _) fun c => .bind (.changeConstraint c _) fun _ => .pure _

/-! ## Operations that do deeds -/

/-- An operation that succeeds has done the given deeds, and one that fails has done none. Nothing is
run. -/
def Does (deeds : α → List (Notice T)) (op : SolveM W T α) : Prop :=
  ∀ m, Ensures op m fun r m' => m'.world = m.world ∧
    m'.deeds = (match r with | .ok a => deeds a | .error _ => []) ++ m.deeds

namespace Does

variable {deeds : β → List (Notice T)}

/-- After an operation that abstains. -/
theorem after {op : SolveM W T α} {f : α → SolveM W T β} (hop : Abstains op)
    (hf : ∀ a, Does deeds (f a)) : Does deeds (op >>= f) := by
  intro m
  rw [ensures_bind]
  refine (hop m).mono ?_
  rintro r m₁ ⟨hworld, hdeeds⟩
  cases r with
  -- the deeds are those of the second operation
  | ok a => exact (hf a m₁).mono fun _ _ h => ⟨h.1.trans hworld, hdeeds ▸ h.2⟩
  | error e => exact ⟨hworld, hdeeds⟩

/-- The result is made into another one. -/
theorem map {op : SolveM W T α} {f : α → β} (hop : Does (fun a => deeds (f a)) op) :
    Does deeds (do return f (← op)) := by
  intro m
  rw [ensures_bind]
  refine (hop m).mono fun r m₁ h => ?_
  cases r with
  | ok a => exact (ensures_pure _).2 h
  | error e => exact h

/-- A deed is noted. -/
theorem note {n : Notice T} (hn : n.isDeed = true) :
    Does (W := W) (fun _ => [n]) (note n) :=
  fun _ => (ensures_note n).2 ⟨rfl, List.filter_cons_of_pos hn⟩

end Does

/-- To make a constraint the determiner of a variable is one deed. -/
theorem seize_does (c : ConstraintId) (output : VarId) :
    Does (W := W) (T := T) (fun _ => [.enforces c output]) (seize c output) := by
  refine .after (.getVariable output) fun x => ?_
  -- a determiner that is displaced is noted, which is no deed
  cases x.determinedBy with
  | none =>
    refine .after (.changeVariable output _) fun _ => .after (.count _) fun _ => ?_
    exact Does.map (f := fun _ => none) (.note rfl)
  | some other =>
    refine .after (.changeConstraint other _) fun _ => .after (.count _) fun _ => ?_
    refine .after (.note rfl) fun _ => .after (.changeVariable output _) fun _ => ?_
    exact .after (.count _) fun _ => Does.map (f := fun _ => some other) (.note rfl)

/-- To install a method is to put it in force. -/
theorem install_does (mark : Mark) (c : ConstraintId) :
    Does (W := W) (T := T) (fun installed => (installed.map fun p => .enforces c p.1).toList)
      (install mark c) := by
  refine .after (.getConstraint c) fun node => .after (.query _) fun chosen => ?_
  refine .after (.changeConstraint c _) fun _ => ?_
  split
  · -- no method is found: a failure is noted if the constraint is required
    split
    · exact .after (.count _) fun _ => .after (.throw _) fun _ => .after (.note rfl) fun _ =>
        fun _ => (ensures_pure _).2 ⟨rfl, rfl⟩
    · exact .after (.note rfl) fun _ _ => (ensures_pure _).2 ⟨rfl, rfl⟩
  · next method _ =>
    refine .after (.forM fun v => .changeVariable v _) fun _ => ?_
    exact Does.map (f := fun displaced => some (method.output, displaced)) (seize_does c method.output)

variable {m : Machine W T} {c : ConstraintId} {node : Constraint W T} {method : Method W T}

/-- Recalculating a constraint with a method in force gives its output the constancy that the constraint
gives it. If the output is constant, the method is run on the present values of its inputs, which is
noted, and the outcome is stored; otherwise no deed is done. -/
theorem ensures_recalculate_does (h : m.solver.Grounded)
    (hnode : m.solver.constraintAt? c = some node) (hmethod : node.enforcingMethod? = some method) :
    Ensures (recalculate c) m fun r m' => r = .ok () ∧
      m'.solver.constantAt method.output =
        node.definition.constantFrom m.solver.constantAt method.output ∧
      if node.definition.constantFrom m.solver.constantAt method.output then
        m'.world = (method.runOn (valuesFrom m.solver.cellAt method.inputs) m.world).2 ∧
        m'.deeds = .executed c method.output (valuesFrom m.solver.cellAt method.inputs) :: m.deeds ∧
        m'.solver.cellAt method.output =
          (method.runOn (valuesFrom m.solver.cellAt method.inputs) m.world).1.store
            (m.solver.cellAt method.output)
      else m'.world = m.world ∧ m'.deeds = m.deeds ∧
        m'.solver.cellAt method.output = m.solver.cellAt method.output := by
  obtain ⟨i, _, hget⟩ := Option.bind_eq_some_iff.1 hmethod
  obtain ⟨x, hx⟩ := Option.isSome_iff_exists.1
    (h.mentioned hnode _ (Definition.output_mem_vars (Definition.mem_of_method? hget)))
  generalize hconstant :
    node.definition.constantFrom m.solver.constantAt method.output = constant
  refine (ensures_recalculate_stores h hnode hmethod rfl hconstant rfl).mono ?_
  rintro r m' ⟨rfl, hvars, hworld, hdeeds⟩
  have hx' := hvars method.output
  rw [hx, Option.map_some, if_pos rfl] at hx'
  rw [Solver.constantAt_eq hx', Solver.cellAt_eq hx', Solver.cellAt_eq hx]
  cases constant with
  | false => exact ⟨rfl, rfl, hworld, hdeeds, rfl⟩
  | true => exact ⟨rfl, rfl, hworld, hdeeds, rfl⟩

/-- Recalculating a constraint does deeds of this constraint only. -/
theorem ensures_recalculate_ledger (h : m.solver.Grounded)
    (hnode : m.solver.constraintAt? c = some node) :
    Ensures (recalculate c) m fun _ m' => ∀ k, k ≠ c → m'.ledger k = m.ledger k := by
  cases hmethod : node.enforcingMethod? with
  | none =>
    refine (ensures_recalculate_of_not_determines ?_).mono fun _ _ he _ _ => he.1 ▸ rfl
    rintro v ⟨n, hn, hout⟩
    obtain rfl := Option.some.inj (hnode.symm.trans hn)
    rw [Constraint.output?, hmethod] at hout
    cases hout
  | some method =>
    refine (ensures_recalculate_does h hnode hmethod).mono ?_
    rintro _ m' ⟨-, -, hdeeds⟩ k hk
    -- a run concerns `c`, and without a run nothing is entered
    split at hdeeds
    · exact Machine.ledger_of_not_concerns hdeeds.2.1 (decide_eq_false hk.symm)
    · exact congrFun (Machine.NoDeed.ledger ⟨hdeeds.1, hdeeds.2.1⟩) k

end SolveM

end DeltaBlue
