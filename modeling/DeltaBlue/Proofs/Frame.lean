import DeltaBlue.Operations
import DeltaBlue.Proofs.Lookup
import DeltaBlue.Proofs.Outcome

/-!
# What propagation leaves alone

The steps of a walk change cells, walk strengths, constancies and work counters, and nothing that
has to do with the shape of the graph or with marks. Installing and withdrawing also move methods in
and out of force and change variables. Adding and removing begin passes too, and break cycles by
switching constraints off. A relation that holds of every such step holds of the operations made of
them (`WalkFrame`, `ForceFrame`, `PassFrame`).

Two relations say in this way how far the effect of propagation can go. A walk `Repaints` the graph.
Adding and removing `Propagates`: it neither makes nor forgets a variable or a constraint, changes no
definition, and enables nothing.
-/

namespace DeltaBlue

/-- What a variable keeps when its value is recalculated. -/
def Variable.shape {T : Type} (x : Variable T) :
    Option String × OrderedSet ConstraintId × Option ConstraintId × Mark :=
  (x.name, x.incident, x.determinedBy, x.mark)

/-- How many cycles and how many unsatisfiable required constraints were found. -/
def Metrics.faults (x : Metrics) : Nat × Nat := (x.cycles, x.unsatisfiable)

/-- The records that a variable keeps of the constraints around it. -/
def Variable.links {T : Type} (x : Variable T) : OrderedSet ConstraintId × Option ConstraintId :=
  (x.incident, x.determinedBy)

/-- What a constraint keeps as long as it exists. -/
def Constraint.declared {W T : Type} (x : Constraint W T) : Definition W T × Option VarId :=
  (x.definition, x.sink)

namespace Solver

variable {W T : Type}

/-- The constraint exists and is part of the graph. -/
def Enabled (s : Solver W T) (c : ConstraintId) : Prop :=
  ∃ node, s.constraintAt? c = some node ∧ node.enabled = true

/-- At most the work counters differ. -/
structure Alike (s s' : Solver W T) : Prop where
  /-- The constraints are the same. -/
  constraintAt : ∀ c, s'.constraintAt? c = s.constraintAt? c
  /-- The variables are the same. -/
  variableAt : ∀ v, s'.variableAt? v = s.variableAt? v
  /-- No pass was begun. -/
  passes : s'.passes = s.passes
  /-- The set of enabled constraints was not changed. -/
  changes : s'.changes = s.changes

/-- Only cells, walk strengths, constancies and work counters differ. -/
structure Repaints (s s' : Solver W T) : Prop where
  /-- The constraints are the same. -/
  constraintAt : ∀ c, s'.constraintAt? c = s.constraintAt? c
  /-- The variables have the same shape. -/
  shape : ∀ v, (s'.variableAt? v).map Variable.shape = (s.variableAt? v).map Variable.shape
  /-- No pass was begun. -/
  passes : s'.passes = s.passes
  /-- The set of enabled constraints was not changed. -/
  changes : s'.changes = s.changes

/-- The effect of adding and removing constraints: everything that exists is still there with its
definition, and no constraint was enabled. -/
structure Propagates (s s' : Solver W T) : Prop where
  /-- The constraints are the same, with the same definitions and sinks. -/
  declared : ∀ c, (s'.constraintAt? c).map Constraint.declared =
    (s.constraintAt? c).map Constraint.declared
  /-- No constraint was enabled. -/
  enabled : ∀ c, s'.Enabled c → s.Enabled c
  /-- The variables are the same. -/
  live : ∀ v, (s'.variableAt? v).isSome = (s.variableAt? v).isSome
  /-- Passes are counted forward. -/
  passes : s.passes ≤ s'.passes
  /-- The generation is the caller's. -/
  changes : s'.changes = s.changes

/-- Repainting twice is repainting. -/
theorem Repaints.transitive : SolveM.Transitive (Repaints (W := W) (T := T)) where
  refl _ := ⟨fun _ => rfl, fun _ => rfl, rfl, rfl⟩
  trans h h' :=
    { constraintAt := fun c => (h'.constraintAt c).trans (h.constraintAt c)
      shape := fun v => (h'.shape v).trans (h.shape v)
      passes := h'.passes.trans h.passes
      changes := h'.changes.trans h.changes }

/-- Propagating twice is propagating. Passes are counted forward, and all else is chained. -/
theorem Propagates.transitive : SolveM.Transitive (Propagates (W := W) (T := T)) where
  refl _ := ⟨fun _ => rfl, fun _ => id, fun _ => rfl, Nat.le_refl _, rfl⟩
  trans h h' :=
    { declared := fun c => (h'.declared c).trans (h.declared c)
      enabled := fun c hc => h.enabled c (h'.enabled c hc)
      live := fun v => (h'.live v).trans (h.live v)
      passes := Nat.le_trans h.passes h'.passes
      changes := h'.changes.trans h.changes }

variable {s s' : Solver W T}

/-- A graph that differs in its work counters only is repainted. -/
theorem Alike.repaints (h : s.Alike s') : s.Repaints s' :=
  ⟨h.constraintAt, fun v => congrArg _ (h.variableAt v), h.passes, h.changes⟩

/-- A variable of a repainted graph is one of the graph before, in the same shape. -/
theorem Repaints.variable_of (h : s.Repaints s') {v : VarId} {x' : Variable T}
    (hx : s'.variableAt? v = some x') :
    ∃ x, s.variableAt? v = some x ∧ x'.incident = x.incident ∧ x'.determinedBy = x.determinedBy ∧
      x'.mark = x.mark := by
  have hshape := h.shape v
  rw [hx, Option.map_some] at hshape
  obtain ⟨x, hx', he⟩ := Option.map_eq_some_iff.1 hshape.symm
  simp only [Variable.shape, Prod.mk.injEq] at he
  obtain ⟨_, hi, hd, hm⟩ := he
  exact ⟨x, hx', hi.symm, hd.symm, hm.symm⟩

/-- What was repainted can be painted as before. -/
theorem Repaints.symm (h : s.Repaints s') : s'.Repaints s :=
  ⟨fun c => (h.constraintAt c).symm, fun v => (h.shape v).symm, h.passes.symm, h.changes.symm⟩

/-- Repainting makes and forgets no variable. -/
theorem Repaints.live (h : s.Repaints s') (v : VarId) :
    (s'.variableAt? v).isSome = (s.variableAt? v).isSome := by
  have := congrArg Option.isSome (h.shape v)
  simpa using this

/-- Propagating makes and forgets no constraint. -/
theorem Propagates.constraint_live (h : s.Propagates s') (c : ConstraintId) :
    (s'.constraintAt? c).isSome = (s.constraintAt? c).isSome := by
  rw [← Option.isSome_map (f := Constraint.declared), h.declared c, Option.isSome_map]

/-- Repainting is the mildest effect that adding and removing can have. -/
theorem Repaints.propagates (h : s.Repaints s') : s.Propagates s' where
  declared c := by rw [h.constraintAt]
  enabled c hc := by
    obtain ⟨node, hnode, he⟩ := hc
    exact ⟨node, by rw [← h.constraintAt, hnode], he⟩
  live := h.live
  passes := Nat.le_of_eq h.passes.symm
  changes := h.changes

/-- Changes of the work counters alone repaint nothing. -/
theorem repaints_metrics (f : Metrics → Metrics) (s : Solver W T) :
    s.Repaints { s with metrics := f s.metrics } :=
  ⟨fun _ => rfl, fun _ => rfl, rfl, rfl⟩

/-- A change of a variable that keeps its shape. -/
theorem repaints_modifyVariable {f : Variable T → Variable T} (hf : ∀ x, (f x).shape = x.shape)
    (v : VarId) (s : Solver W T) : s.Repaints (s.modifyVariable v f) where
  constraintAt _ := rfl
  shape u := by
    rw [variableAt?_modifyVariable]
    -- only `v` is changed, and it keeps its shape
    by_cases hu : u = v
    · rw [if_pos hu, hu, Option.map_map]
      congr 1
      funext x
      exact hf x
    · rw [if_neg hu]
  passes := rfl
  changes := rfl

/-- Any change of a variable keeps the constraints and the set of variables. -/
theorem propagates_modifyVariable (f : Variable T → Variable T) (v : VarId) (s : Solver W T) :
    s.Propagates (s.modifyVariable v f) where
  declared _ := rfl
  enabled _ := id
  live u := by
    rw [variableAt?_modifyVariable]
    by_cases hu : u = v
    · rw [if_pos hu, hu, Option.isSome_map]
    · rw [if_neg hu]
  passes := Nat.le_refl _
  changes := rfl

/-- A change of a constraint that keeps its definition and does not enable it. -/
theorem propagates_modifyConstraint {f : Constraint W T → Constraint W T}
    (hd : ∀ x, (f x).declared = x.declared) (he : ∀ x, (f x).enabled = true → x.enabled = true)
    (c : ConstraintId) (s : Solver W T) : s.Propagates (s.modifyConstraint c f) where
  declared k := by
    rw [constraintAt?_modifyConstraint]
    by_cases hk : k = c
    · rw [if_pos hk, hk, Option.map_map]
      congr 1
      funext x
      exact hd x
    · rw [if_neg hk]
  enabled k hk := by
    obtain ⟨node, hnode, hen⟩ := hk
    rw [constraintAt?_modifyConstraint] at hnode
    -- the constraint that is changed was enabled if it is now; the others are the same
    by_cases hkc : k = c
    · rw [if_pos hkc] at hnode
      obtain ⟨x, hx, rfl⟩ := Option.map_eq_some_iff.1 hnode
      exact ⟨x, hkc ▸ hx, he x hen⟩
    · rw [if_neg hkc] at hnode
      exact ⟨node, hnode, hen⟩
  live _ := rfl
  passes := Nat.le_refl _
  changes := rfl

/-- Switching a constraint off enables none and changes no definition. -/
theorem propagates_switchOff (c : ConstraintId) (s : Solver W T) :
    s.Propagates (s.modifyConstraint c fun x => { x with enabled := false }) :=
  propagates_modifyConstraint (by intro; rfl) (by intro; exact nofun) c s

/-- No output is held more weakly than a constraint of the weakest strength insists. -/
theorem weakestMethodFrom_weakest {mark : Mark} {ms : List (Method W T)} {start : Nat}
    {chosen i? : Option Nat} (h : s.weakestMethodFrom mark ms start .weakest chosen = .ok i?) :
    i? = chosen := by
  induction ms generalizing start with
  | nil => exact (Except.ok.inj h).symm
  | cons m ms ih =>
    unfold weakestMethodFrom at h
    cases hx : s.lookupVariable m.output with
    | error e =>
      rw [hx] at h
      cases h
    | ok x =>
      rw [hx] at h
      -- nothing is weaker than the weakest, so the output is passed over
      exact ih ((if_neg fun hlt => absurd hlt.2 (Nat.not_lt_zero _)).symm.trans h)

/-- A constraint of the weakest strength finds no method to put in force. -/
theorem weakestMethod_weakest {mark : Mark} {d : Definition W T} {i? : Option Nat}
    (hd : d.strength = .weakest) (h : s.weakestMethod mark d = .ok i?) : i? = none := by
  rw [weakestMethod, hd] at h
  exact weakestMethodFrom_weakest h

/-- A constraint that does not exist cannot be changed. -/
theorem modifyConstraint_eq_self {f : Constraint W T → Constraint W T} {c : ConstraintId}
    (h : s.constraintAt? c = none) : s.modifyConstraint c f = s := by
  rw [modifyConstraint, Arena.modify_eq_self h]

end Solver

namespace SolveM

variable {W T : Type}

open Solver (Repaints Propagates)

/-- A relation that every step of a walk obeys. -/
structure WalkFrame (ρ : Solver W T → Solver W T → Prop) : Prop extends Transitive ρ where
  /-- A variable is repainted. -/
  onPaint : ∀ {f : Variable T → Variable T}, (∀ x, (f x).shape = x.shape) →
    ∀ v s, ρ s (s.modifyVariable v f)
  /-- Work is counted, but nothing that went wrong. -/
  onWork : ∀ {f : Metrics → Metrics}, (∀ x, (f x).faults = x.faults) →
    ∀ s, ρ s { s with metrics := f s.metrics }

/-- A relation that every step of installing and withdrawing obeys. -/
structure ForceFrame (ρ : Solver W T → Solver W T → Prop) : Prop extends WalkFrame ρ where
  /-- A variable is changed. -/
  onVariable : ∀ f v s, ρ s (s.modifyVariable v f)
  /-- A method is moved into or out of force. Constraints of the weakest strength have none. -/
  onForce : ∀ i c s, (∀ node, s.constraintAt? c = some node → i ≠ none →
      node.definition.strength ≠ .weakest) →
    ρ s (s.modifyConstraint c fun x => { x with enforcing := i })
  /-- A required constraint is found to be unsatisfiable. -/
  onUnsatisfied : ∀ s, ρ s
    { s with metrics := { s.metrics with unsatisfiable := s.metrics.unsatisfiable + 1 } }

/-- A relation that every step of adding and removing obeys. -/
structure PassFrame (ρ : Solver W T → Solver W T → Prop) : Prop extends ForceFrame ρ where
  /-- A cycle is found, and the constraint that closes it is switched off. -/
  onBreak : ∀ c s, ρ s
    (({ s with metrics := { s.metrics with cycles := s.metrics.cycles + 1 } } :
      Solver W T).modifyConstraint c fun x => { x with enabled := false })
  /-- A pass is begun. -/
  onPass : ∀ s, ρ s { s with passes := s.passes + 1 }

/-- A wider relation is obeyed by every step of adding and removing too. -/
theorem PassFrame.mono {ρ σ : Solver W T → Solver W T → Prop} (hρ : PassFrame ρ)
    (hσ : Transitive σ) (h : ∀ {s s'}, ρ s s' → σ s s') : PassFrame σ where
  toTransitive := hσ
  onPaint hf v s := h (hρ.onPaint hf v s)
  onWork hf s := h (hρ.onWork hf s)
  onVariable f v s := h (hρ.onVariable f v s)
  onForce i c s hi := h (hρ.onForce i c s hi)
  onUnsatisfied s := h (hρ.onUnsatisfied s)
  onBreak c s := h (hρ.onBreak c s)
  onPass s := h (hρ.onPass s)

/-- Every step of a walk repaints. -/
theorem repaints_frame : WalkFrame (W := W) (T := T) Repaints where
  toTransitive := Repaints.transitive
  onPaint hf := Solver.repaints_modifyVariable hf
  onWork _ := Solver.repaints_metrics _

/-- Every step of adding and removing propagates. Most of them repaint; only a method that is moved
in or out of force, a variable that is claimed, a constraint that is switched off and the start of a
pass do more. -/
theorem propagates_frame : PassFrame (W := W) (T := T) Propagates where
  toTransitive := Propagates.transitive
  onPaint _ := Solver.propagates_modifyVariable _
  onWork _ s := (Solver.repaints_metrics _ s).propagates
  onVariable := Solver.propagates_modifyVariable
  onForce _ c s _ := Solver.propagates_modifyConstraint (by intro; rfl) (by intro; exact id) c s
  onUnsatisfied s :=
    (Solver.repaints_metrics (fun x => { x with unsatisfiable := x.unsatisfiable + 1 }) s).propagates
  onBreak c s := Propagates.transitive.trans
    (Solver.repaints_metrics (fun x => { x with cycles := x.cycles + 1 }) s).propagates
    (Solver.propagates_switchOff c _)
  onPass _ := ⟨fun _ => rfl, fun _ => id, fun _ => rfl, Nat.le_succ _, rfl⟩

/-! ## Walks

A walk changes nothing but by recalculating constraints. -/

section

variable {J : Machine W T → Prop} (hJ : ∀ c, Preserves (W := W) (T := T) J (recalculate c))
include hJ

/-- A sweep keeps every condition that recalculating keeps. -/
theorem sweep_preserves (mark : Mark) (fuel : Nat) (todo : OrderedSet ConstraintId) :
    Preserves J (sweep mark fuel todo) := by
  -- by induction on the fuel: a round takes one constraint off the list, and the rest is a sweep
  -- again
  induction fuel generalizing todo with
  | zero => exact .unfinished
  | succ fuel ih =>
    unfold sweep
    split
    · exact .pure _
    · refine .bind (.getConstraint _) fun node => ?_
      split
      · exact ih _
      · refine .bind (.getVariable _) fun x => ?_
        split
        · exact .pure _
        · refine .bind (hJ _) fun _ => .bind (.getVariable _) fun x => ?_
          exact .bind (.ask _) fun _ => ih _

/-- Bringing constraints up to date keeps every condition that recalculating keeps. -/
theorem refresh_preserves (cs : List ConstraintId) (todo : OrderedSet VarId) :
    Preserves J (refresh cs todo) := by
  induction cs generalizing todo with
  | nil => exact .pure _
  | cons c cs ih =>
    unfold refresh
    refine .bind (hJ c) fun _ => .bind (.getConstraint c) fun node => ?_
    split
    · exact ih _
    · exact ih _

/-- A walk downstream keeps every condition that recalculating keeps. -/
theorem strandedFrom_preserves (fuel : Nat) (todo : OrderedSet VarId)
    (found : OrderedSet ConstraintId) : Preserves J (strandedFrom fuel todo found) := by
  induction fuel generalizing todo found with
  | zero => exact .unfinished
  | succ fuel ih =>
    unfold strandedFrom
    split
    · exact .pure _
    · -- the variable is looked up, its consumers are brought up to date, and the walk goes on
      refine .bind (.getVariable _) fun x => .bind (.ask _) fun s => ?_
      exact .bind (refresh_preserves hJ _ _) fun _ => ih _ _

end

section

variable {ρ : Solver W T → Solver W T → Prop} (hρ : WalkFrame ρ)
include hρ

/-- Counting work is a step of a walk. -/
theorem WalkFrame.count {f : Metrics → Metrics} (hf : ∀ x, (f x).faults = x.faults) :
    Obeys ρ (count f) :=
  .update (hρ.onWork hf)

/-- Executing a method is a step of a walk: it changes at most the cell of the output. -/
theorem execute_obeys (c : ConstraintId) (i : Nat) : Obeys ρ (execute c i) := by
  have hT := hρ.toTransitive
  unfold execute
  refine .bind hT (.getConstraint hT c) fun node => ?_
  cases node.definition.method? i with
  | none => exact .pure hT _
  | some x =>
    refine .bind hT (.query hT _) fun inputs => ?_
    refine .bind hT (.runOn hT x inputs) fun outcome => ?_
    refine .bind hT (hρ.count (by intro; rfl)) fun _ => ?_
    refine .bind hT (.getVariable hT _) fun _ => ?_
    -- only a value and a failure are written into the cell
    cases outcome with
    | assign value =>
      exact .bind hT (.changeVariable hT (hρ.onPaint (by intro; rfl) _)) fun _ => .note hT _
    | keep => exact .note hT _
    | fail cause =>
      refine .bind hT (.note hT _) fun _ => .bind hT (hρ.count (by intro; rfl)) fun _ => ?_
      exact .bind hT (.changeVariable hT (hρ.onPaint (by intro; rfl) _)) fun _ => .note hT _

/-- Recalculating a constraint repaints its output and executes its method. -/
theorem recalculate_obeys (c : ConstraintId) : Obeys ρ (recalculate c) := by
  have hT := hρ.toTransitive
  unfold recalculate
  refine .bind hT (.getConstraint hT c) fun node => ?_
  split
  · refine .bind hT (.query hT _) fun walk => .bind hT (.query hT _) fun constant => ?_
    refine .bind hT (.changeVariable hT (hρ.onPaint (by intro; rfl) _)) fun _ => ?_
    split
    · exact execute_obeys hρ c _
    · exact .pure hT _
  · exact .pure hT _

/-- A sweep obeys what its steps obey. -/
theorem sweep_obeys (mark : Mark) (fuel : Nat) (todo : OrderedSet ConstraintId) :
    Obeys ρ (sweep mark fuel todo) :=
  (Obeys.iff_preserves hρ.toTransitive).2 fun s => sweep_preserves
    (fun c => (Obeys.iff_preserves hρ.toTransitive).1 (recalculate_obeys hρ c) s) mark fuel todo

/-- Bringing constraints up to date obeys what the steps of a walk obey. -/
theorem refresh_obeys (cs : List ConstraintId) (todo : OrderedSet VarId) :
    Obeys ρ (refresh cs todo) :=
  (Obeys.iff_preserves hρ.toTransitive).2 fun s => refresh_preserves
    (fun c => (Obeys.iff_preserves hρ.toTransitive).1 (recalculate_obeys hρ c) s) cs todo

/-- A walk downstream obeys what its steps obey. -/
theorem strandedFrom_obeys (fuel : Nat) (todo : OrderedSet VarId)
    (found : OrderedSet ConstraintId) : Obeys ρ (strandedFrom fuel todo found) :=
  (Obeys.iff_preserves hρ.toTransitive).2 fun s => strandedFrom_preserves
    (fun c => (Obeys.iff_preserves hρ.toTransitive).1 (recalculate_obeys hρ c) s) fuel todo found

end

/-- Recalculating leaves the graph in shape. -/
theorem recalculate_repaints (c : ConstraintId) :
    Obeys (W := W) (T := T) Repaints (recalculate c) :=
  recalculate_obeys repaints_frame c

/-- A sweep leaves the graph in shape. -/
theorem sweep_repaints (mark : Mark) (fuel : Nat) (todo : OrderedSet ConstraintId) :
    Obeys (W := W) (T := T) Repaints (sweep mark fuel todo) :=
  sweep_obeys repaints_frame mark fuel todo

/-- Bringing constraints up to date leaves the graph in shape. -/
theorem refresh_repaints (cs : List ConstraintId) (todo : OrderedSet VarId) :
    Obeys (W := W) (T := T) Repaints (refresh cs todo) :=
  refresh_obeys repaints_frame cs todo

/-- A walk downstream leaves the graph in shape. -/
theorem strandedFrom_repaints (fuel : Nat) (todo : OrderedSet VarId)
    (found : OrderedSet ConstraintId) :
    Obeys (W := W) (T := T) Repaints (strandedFrom fuel todo found) :=
  strandedFrom_obeys repaints_frame fuel todo found

/-! ## Installing and withdrawing -/

section

variable {ρ : Solver W T → Solver W T → Prop} (hρ : ForceFrame ρ)
include hρ

/-- Every change of a variable is allowed while methods are installed and withdrawn. -/
theorem ForceFrame.changeVariable (v : VarId) (f : Variable T → Variable T) :
    Obeys ρ (changeVariable v f) :=
  .changeVariable hρ.toTransitive (hρ.onVariable f v)

/-- Moving a method out of force. -/
theorem ForceFrame.setIdle (c : ConstraintId) :
    Obeys ρ (changeConstraint c fun x => { x with enforcing := none }) :=
  .changeConstraint hρ.toTransitive fun s => hρ.onForce none c s fun _ _ h => absurd rfl h

/-- Entering a constraint at its variables changes variables only. -/
theorem register_obeys (c : ConstraintId) : Obeys ρ (register c) := by
  have hT := hρ.toTransitive
  exact .bind hT (.getConstraint hT c) fun _ => .forM hT fun v => hρ.changeVariable v _

/-- Taking a constraint off its variables changes variables only. -/
theorem deregister_obeys (c : ConstraintId) : Obeys ρ (deregister c) := by
  have hT := hρ.toTransitive
  exact .bind hT (.getConstraint hT c) fun _ => .forM hT fun v => .update (hρ.onVariable _ v)

/-- Seizing an output changes the output, and moves the method out of force that determined it. -/
theorem seize_obeys (c : ConstraintId) (output : VarId) : Obeys ρ (seize c output) := by
  have hT := hρ.toTransitive
  unfold seize
  refine .bind hT (.getVariable hT _) fun x => ?_
  cases x.determinedBy with
  | none =>
    refine .bind hT (hρ.changeVariable _ _) fun _ => ?_
    refine .bind hT (hρ.count (by intro; rfl)) fun _ => ?_
    exact .bind hT (.note hT _) fun _ => .pure hT _
  | some other =>
    refine .bind hT (hρ.setIdle _) fun _ => ?_
    refine .bind hT (hρ.count (by intro; rfl)) fun _ => .bind hT (.note hT _) fun _ => ?_
    refine .bind hT (hρ.changeVariable _ _) fun _ => ?_
    refine .bind hT (hρ.count (by intro; rfl)) fun _ => ?_
    exact .bind hT (.note hT _) fun _ => .pure hT _

/-- Installing moves a method into force and claims its variables. -/
theorem install_obeys (mark : Mark) (c : ConstraintId) : Obeys ρ (install mark c) := by
  have hT := hρ.toTransitive
  intro m
  unfold install
  rw [ensures_bind, ensures_getConstraint, Solver.lookupConstraint]
  cases hnode : m.solver.constraintAt? c with
  | none => exact hT.refl _
  | some node =>
    simp only
    rw [ensures_bind, ensures_query]
    cases hchosen : m.solver.weakestMethod mark node.definition with
    | error e => exact hT.refl _
    | ok chosen =>
      simp only
      rw [ensures_bind]
      refine .changeConstraint hnode ?_
      -- a constraint of the weakest strength finds no method, so none is moved into force for it
      have hforce := hρ.onForce chosen c m.solver fun n hn hne hweakest => by
        obtain rfl := Option.some.inj (hnode.symm.trans hn)
        exact hne (Solver.weakestMethod_weakest hweakest hchosen)
      refine Ensures.mono (P := fun _ m' => ρ (m.solver.modifyConstraint c _) m'.solver) ?_
        fun _ _ => hT.trans hforce
      -- from here on every step obeys by itself
      refine (?_ : Obeys ρ _) ⟨m.solver.modifyConstraint c _, m.world, m.journal⟩
      split
      · split
        · refine .bind hT (.update hρ.onUnsatisfied) fun _ => .bind hT (.throw hT _) fun _ => ?_
          exact .bind hT (.note hT _) fun _ => .pure hT _
        · exact .bind hT (.note hT _) fun _ => .pure hT _
      · refine .bind hT (.forM hT fun v => hρ.changeVariable v _) fun _ => ?_
        exact .bind hT (seize_obeys hρ c _) fun _ => .pure hT _

/-- Leaving an output free repaints what is downstream. -/
theorem vacate_obeys (fuel : Nat) (output : VarId) : Obeys ρ (vacate fuel output) := by
  have hT := hρ.toTransitive
  refine .bind hT (hρ.changeVariable _ _) fun _ => ?_
  exact .bind hT (strandedFrom_obeys hρ.toWalkFrame _ _ _) fun _ => .ask hT _

end

/-! ## Adding and removing -/

section

variable {ρ : Solver W T → Solver W T → Prop} (hρ : PassFrame ρ)
include hρ

/-- A new mark begins a pass. -/
theorem nextMark_obeys : Obeys ρ nextMark :=
  .bind hρ.toTransitive (.update hρ.onPass) fun _ => .ask hρ.toTransitive _

/-- Counting a cycle and switching the constraint off that closes it. -/
theorem PassFrame.breakCycle {α : Type} {c : ConstraintId} {f : Unit → SolveM W T α}
    (hf : ∀ u, Obeys ρ (f u)) :
    Obeys ρ (count (fun x => { x with cycles := x.cycles + 1 }) >>= fun _ =>
      changeConstraint c (fun x => { x with enabled := false }) >>= f) := by
  intro m
  have hbreak := hρ.onBreak c m.solver
  rw [ensures_bind, ensures_count]
  simp only
  -- the two steps are one of the frame, so the solver between them is left unnamed
  generalize ({ m.solver with metrics := { m.solver.metrics with
    cycles := m.solver.metrics.cycles + 1 } } : Solver W T) = s at hbreak ⊢
  rw [ensures_bind, ensures_changeConstraint]
  cases hnode : s.constraintAt? c with
  | none =>
    rw [Solver.modifyConstraint_eq_self hnode] at hbreak
    exact hbreak
  | some node => exact (hf () _).mono fun _ _ h => hρ.trans hbreak h

section

variable {remove add : ConstraintId → SolveM W T Unit}

/-- Enforcing a constraint installs a method and sweeps, and on a cycle switches the constraint
off. -/
theorem enforce_obeys (hremove : ∀ c, Obeys ρ (remove c)) (fuel : Nat) (mark : Mark)
    (c : ConstraintId) : Obeys ρ (enforce remove fuel mark c) := by
  have hT := hρ.toTransitive
  unfold enforce
  refine .bind hT (install_obeys hρ.toForceFrame mark c) fun installed => ?_
  split
  · exact .pure hT _
  · refine .bind hT (sweep_obeys hρ.toWalkFrame _ _ _) fun closed => ?_
    split
    · refine .bind hT (.note hT _) fun _ => hρ.breakCycle fun _ => ?_
      exact .bind hT (hremove _) fun _ => .throw hT _
    · exact .bind hT (hρ.changeVariable _ _) fun _ => .pure hT _

/-- Enforcing the displaced constraint, and the one displaced by it, obeys what one enforcing
obeys. -/
theorem displace_obeys (hremove : ∀ c, Obeys ρ (remove c)) (fuel : Nat) (mark : Mark)
    (steps : Nat) (c : ConstraintId) : Obeys ρ (displace remove fuel mark steps c) := by
  have hT := hρ.toTransitive
  -- by induction on the length of the cascade
  induction steps generalizing c with
  | zero => exact .unfinished
  | succ steps ih =>
    unfold displace
    refine .bind hT (enforce_obeys hρ hremove fuel mark c) fun displaced => ?_
    split
    · exact .pure hT _
    · exact ih _

/-- Adding constraints again, one after the other, obeys what adding one obeys. -/
theorem readd_obeys (hadd : ∀ c, Obeys ρ (add c)) (cs : List ConstraintId)
    (failure : Option SolveError) : Obeys ρ (readd add cs failure) := by
  have hT := hρ.toTransitive
  induction cs generalizing failure with
  | nil => cases failure with
    | none => exact .pure hT _
    | some e => exact .throw hT _
  | cons c cs ih =>
    unfold readd
    refine .bind hT (.getConstraint hT c) fun node => ?_
    split
    · refine .bind hT (.attempt (hadd c)) fun r => ?_
      cases r with
      | ok _ => exact ih _
      | error _ => exact ih _
    · exact ih _

/-- Withdrawing a constraint moves its method out of force, vacates its output and adds others
again. -/
theorem withdraw_obeys (hadd : ∀ c, Obeys ρ (add c)) (fuel : Nat) (c : ConstraintId) :
    Obeys ρ (withdraw add fuel c) := by
  have hT := hρ.toTransitive
  unfold withdraw
  refine .bind hT (.getConstraint hT c) fun node => ?_
  refine .bind hT (hρ.setIdle c) fun _ => ?_
  refine .bind hT (deregister_obeys hρ.toForceFrame c) fun _ => ?_
  split
  · exact .pure hT _
  · refine .bind hT (.note hT _) fun _ => .bind hT (vacate_obeys hρ.toForceFrame fuel _) fun cs => ?_
    exact readd_obeys hρ hadd cs _

end

/-- Adding obeys every relation of the frame. -/
theorem add_obeys (fuel : Nat) (c : ConstraintId) : Obeys ρ (add fuel c) := by
  -- adding and removing call each other, and the fuel counts how deep
  induction fuel generalizing c with
  | zero => exact .unfinished
  | succ fuel ih =>
    refine .bind hρ.toTransitive (nextMark_obeys hρ) fun mark => ?_
    exact displace_obeys hρ (fun c => withdraw_obeys hρ ih fuel c) fuel mark fuel c

/-- Removing obeys every relation of the frame. -/
theorem remove_obeys (fuel : Nat) (c : ConstraintId) : Obeys ρ (remove fuel c) :=
  withdraw_obeys hρ (add_obeys hρ fuel) fuel c

end

end SolveM

end DeltaBlue
