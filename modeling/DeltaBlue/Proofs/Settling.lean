import DeltaBlue.Proofs.Dependency

/-!
# Settled constraints

The walk strength, the constancy and the cell of an output are functions of those of the other
variables of the constraint that determines it: `Definition.walkFrom` and `Definition.constantFrom`
for the first two, and a run of the method in force for the cell of a constant output. A constraint
whose output satisfies these equations is `Settled`. Recalculating a constraint settles it, and can
unsettle only those that compute something from its output.

Cells can be written from outside, so the equation for the cell is asked for only where the
parameter `cells` holds.
-/

namespace DeltaBlue

/-! ## The equations -/

/-- The walk strength that a constraint gives to its output: the weakest of its strength and the
walk strengths of the outputs of its other methods. -/
def Definition.walkFrom {W T : Type} (d : Definition W T) (walk : VarId → Strength) (o : VarId) :
    Strength :=
  (d.methods.filter (·.output ≠ o)).foldl (fun held m => held.weakestOf (walk m.output))
    d.strength

/-- The constancy that a constraint gives to its output: it is constant unless the constraint is
volatile or another variable of the constraint is not constant. -/
def Definition.constantFrom {W T : Type} (d : Definition W T) (constant : VarId → Bool)
    (o : VarId) : Bool :=
  !d.volatile && (d.vars.filter (· ≠ o)).all constant

/-- The values in the cells of variables, or the cause that the first of them without a value
gives. -/
def valuesFrom {T : Type} (cell : VarId → Cell T) : List VarId → Except FormulaError (List T)
  | [] => .ok []
  | v :: rest =>
    match cell v with
    | .poisoned cause => .error cause
    | .unassigned => .error (.unassignedInput v)
    | .assigned value => (valuesFrom cell rest).map (value :: ·)

/-- The cell is what a run of the method asks for, in some world. -/
def Method.Yields {W T : Type} (m : Method W T) (values : Except FormulaError (List T))
    (cell : Cell T) : Prop :=
  match values with
  | .error cause => cell = .poisoned cause
  | .ok values => ∃ w, match (m.run values w).1 with
    | .assign value => cell = .assigned value
    | .keep => True
    | .fail cause => cell = .poisoned cause

/-- The cell after an outcome. -/
def Outcome.store {T : Type} : Outcome T → Cell T → Cell T
  | .assign value, _ => .assigned value
  | .keep, cell => cell
  | .fail cause, _ => .poisoned cause

/-- What a method makes of values that were gathered: without values it fails and is not run. -/
def Method.runOn {W T : Type} (m : Method W T) (values : Except FormulaError (List T)) (w : W) :
    Outcome T × W :=
  match values with
  | .error cause => (.fail cause, w)
  | .ok values => m.run values w

/-- The outcome of a run, once stored, is what the method asks for in the world of the run. -/
theorem Method.yields_store {W T : Type} (m : Method W T) (values : Except FormulaError (List T))
    (w : W) (cell : Cell T) : m.Yields values ((m.runOn values w).1.store cell) := by
  cases values with
  | error cause => rfl
  | ok values =>
    refine ⟨w, ?_⟩
    unfold runOn Outcome.store
    cases (m.run values w).1 <;> trivial

/-- The constraint and the output of a run that was noted. -/
def Notice.run? {T : Type} : Notice T → Option (ConstraintId × VarId)
  | .executed c output _ => some (c, output)
  | _ => none

/-- Whether a notice tells that a method was put in force or run. -/
def Notice.isDeed {T : Type} : Notice T → Bool
  | .enforces .. | .executed .. => true
  | _ => false

/-- Which methods were put in force and which were run, the latest first. -/
def Machine.deeds {W T : Type} (m : Machine W T) : List (Notice T) := m.journal.filter Notice.isDeed

/-- Runs are deeds. -/
theorem Machine.filterMap_run?_deeds {W T : Type} (m : Machine W T) :
    m.deeds.filterMap Notice.run? = m.journal.filterMap Notice.run? := by
  rw [deeds, List.filterMap_filter]
  congr 1
  funext n
  cases n <;> rfl

/-- The values of a list of variables depend on the cells of these variables only. -/
theorem valuesFrom_congr {T : Type} {cell cell' : VarId → Cell T} {vs : List VarId}
    (h : ∀ v ∈ vs, cell' v = cell v) : valuesFrom cell' vs = valuesFrom cell vs := by
  induction vs with
  | nil => rfl
  | cons v vs ih =>
    unfold valuesFrom
    rw [h v List.mem_cons_self, ih fun u hu => h u (List.mem_cons_of_mem v hu)]

namespace Definition

variable {W T : Type} {d : Definition W T} {o : VarId}

/-- The walk strength of an output depends on those of the other variables only. -/
theorem walkFrom_congr {walk walk' : VarId → Strength}
    (h : ∀ v ∈ d.vars, v ≠ o → walk' v = walk v) : d.walkFrom walk' o = d.walkFrom walk o := by
  -- over any list of methods and from any strength on
  have hfold : ∀ (ms : List (Method W T)) (a : Strength),
      (∀ m ∈ ms, walk' m.output = walk m.output) →
      ms.foldl (fun held m => held.weakestOf (walk' m.output)) a =
        ms.foldl (fun held m => held.weakestOf (walk m.output)) a := by
    intro ms a hms
    induction ms generalizing a with
    | nil => rfl
    | cons m ms ih =>
      rw [List.foldl_cons, List.foldl_cons, hms m List.mem_cons_self]
      exact ih _ fun n hn => hms n (List.mem_cons_of_mem m hn)
  refine hfold _ _ fun m hm => ?_
  obtain ⟨hm, hne⟩ := List.mem_filter.1 hm
  exact h _ (output_mem_vars hm) (by simpa using hne)

/-- A constraint gives a constant value to its output exactly if it is not volatile and its other
variables are constant. -/
theorem constantFrom_eq_true_iff {constant : VarId → Bool} :
    d.constantFrom constant o = true ↔
      d.volatile = false ∧ ∀ u ∈ d.vars, u ≠ o → constant u = true := by
  simp [constantFrom, or_iff_not_imp_left]

/-- The constancy of an output depends on those of the other variables only. -/
theorem constantFrom_congr {constant constant' : VarId → Bool}
    (h : ∀ v ∈ d.vars, v ≠ o → constant' v = constant v) :
    d.constantFrom constant' o = d.constantFrom constant o := by
  unfold constantFrom
  congr 1
  rw [Bool.eq_iff_iff, List.all_eq_true, List.all_eq_true]
  refine forall₂_congr fun v hv => ?_
  obtain ⟨hv, hne⟩ := List.mem_filter.1 hv
  rw [h v hv (by simpa using hne)]

end Definition

namespace Solver

variable {W T : Type}

/-- The walk strength of a variable; one that does not exist is not held. -/
def walkAt (s : Solver W T) (v : VarId) : Strength :=
  ((s.variableAt? v).map Variable.walkStrength).getD .weakest

/-- Whether a variable is constant; one that does not exist is. -/
def constantAt (s : Solver W T) (v : VarId) : Bool :=
  ((s.variableAt? v).map Variable.constant).getD true

/-- The cell of a variable; one that does not exist has no value. -/
def cellAt (s : Solver W T) (v : VarId) : Cell T :=
  ((s.variableAt? v).map Variable.cell).getD .unassigned

/-- The output of the constraint satisfies its equations; the equation for the cell is asked for
only if `cells` holds. -/
def Settled (cells : Prop) (s : Solver W T) (c : ConstraintId) : Prop :=
  ∀ ⦃node m⦄, s.constraintAt? c = some node → node.enforcingMethod? = some m →
    s.walkAt m.output = node.definition.walkFrom s.walkAt m.output ∧
    s.constantAt m.output = node.definition.constantFrom s.constantAt m.output ∧
    (cells → s.constantAt m.output = true →
      m.Yields (valuesFrom s.cellAt m.inputs) (s.cellAt m.output))

variable {s s' : Solver W T} {cells : Prop} {c : ConstraintId} {node : Constraint W T}
  {v o : VarId} {x : Variable T}

section

variable (h : s.variableAt? v = some x)
include h

/-- The walk strength of a variable that exists. -/
theorem walkAt_eq : s.walkAt v = x.walkStrength := by rw [walkAt, h]; rfl

/-- The constancy of a variable that exists. -/
theorem constantAt_eq : s.constantAt v = x.constant := by rw [constantAt, h]; rfl

/-- The cell of a variable that exists. -/
theorem cellAt_eq : s.cellAt v = x.cell := by rw [cellAt, h]; rfl

end

/-- The variable has the same cell, walk strength and constancy. -/
def SamePaint (s s' : Solver W T) (v : VarId) : Prop :=
  s'.walkAt v = s.walkAt v ∧ s'.constantAt v = s.constantAt v ∧ s'.cellAt v = s.cellAt v

/-- A variable that is the same is painted the same. -/
theorem samePaint_of_eq (h : s'.variableAt? v = s.variableAt? v) : SamePaint s s' v := by
  unfold SamePaint walkAt constantAt cellAt
  rw [h]
  exact ⟨rfl, rfl, rfl⟩

/-- A change of a variable that keeps its cell, walk strength and constancy. -/
theorem samePaint_of_map {f : Variable T → Variable T}
    (h : s'.variableAt? v = (s.variableAt? v).map f)
    (hf : ∀ x, (f x).walkStrength = x.walkStrength ∧ (f x).constant = x.constant ∧
      (f x).cell = x.cell) : SamePaint s s' v := by
  unfold SamePaint walkAt constantAt cellAt
  rw [h]
  cases s.variableAt? v with
  | none => exact ⟨rfl, rfl, rfl⟩
  | some x => exact hf x

/-- A change that leaves the cell of a variable alone. -/
theorem cellAt_of_map {f : Variable T → Variable T} {v : VarId}
    (h : s'.variableAt? v = (s.variableAt? v).map f) (hf : ∀ x, (f x).cell = x.cell) :
    s'.cellAt v = s.cellAt v := by
  unfold cellAt
  rw [h, Option.map_map]
  exact congrArg (fun g => (Option.map g (s.variableAt? v)).getD .unassigned) (funext hf)

/-- A change of one variable that leaves cells alone leaves all cells alone. -/
theorem cellAt_modifyVariable {f : Variable T → Variable T} {v : VarId}
    (hf : ∀ x, (f x).cell = x.cell) (u : VarId) : (s.modifyVariable v f).cellAt u = s.cellAt u := by
  rw [cellAt, variableAt?_modifyVariable]
  split
  · next hu =>
    subst hu
    rw [Option.map_map]
    exact congrArg (fun g => (Option.map g (s.variableAt? u)).getD .unassigned) (funext hf)
  · rfl

/-- Whether a constraint is settled is a matter of its method in force and of its variables. -/
theorem Settled.of_samePaint (h : s.Settled cells c)
    (hc : ∀ node', s'.constraintAt? c = some node' → ∃ node, s.constraintAt? c = some node ∧
      node'.definition = node.definition ∧ node'.enforcing = node.enforcing)
    (hv : ∀ node, s.constraintAt? c = some node → ∀ v ∈ node.definition.vars, SamePaint s s' v) :
    s'.Settled cells c := by
  intro node' m hnode' hm
  obtain ⟨node, hnode, hdef, henf⟩ := hc node' hnode'
  rw [Constraint.enforcingMethod?, hdef, henf] at hm
  obtain ⟨i, _, hmethod⟩ := Option.bind_eq_some_iff.1 hm
  -- the equations are about the variables of the constraint, and these have the same paint
  have hmem := Definition.mem_of_method? hmethod
  have hsame := hv node hnode
  obtain ⟨hwalk, hconstant, hcell⟩ := h hnode hm
  obtain ⟨hw, hco, hce⟩ := hsame _ (Definition.output_mem_vars hmem)
  rw [hw, hco, hce, hdef, Definition.walkFrom_congr fun v hv _ => (hsame v hv).1,
    Definition.constantFrom_congr fun v hv _ => (hsame v hv).2.1,
    valuesFrom_congr fun v hv => (hsame v ((Definition.mem_inputs_iff hmem).1 hv).1).2.2]
  exact ⟨hwalk, hconstant, hcell⟩

/-- A constraint without a method in force has nothing to settle. -/
theorem settled_of_not_determines (h : ∀ v, ¬ s.Determines c v) : s.Settled cells c := by
  intro node m hnode hm
  refine absurd ⟨node, hnode, ?_⟩ (h m.output)
  rw [Constraint.output?, hm]
  rfl

/-- One variable has been given a walk strength, a constancy and a cell. -/
structure Paints (s s' : Solver W T) (o : VarId) (walk : Strength) (constant : Bool)
    (cell : Cell T) : Prop where
  /-- The variable afterwards. -/
  output : ∃ x, s'.variableAt? o = some x ∧ x.walkStrength = walk ∧ x.constant = constant ∧
    x.cell = cell
  /-- The other variables are the same. -/
  other : ∀ v, v ≠ o → s'.variableAt? v = s.variableAt? v

/-- A constraint whose output has been given what the equations say is settled. -/
theorem Paints.settled {walk : Strength} {constant : Bool} {cell : Cell T} {m : Method W T}
    (h : s.Paints s' m.output walk constant cell) (hc : s'.constraintAt? c = s.constraintAt? c)
    (hnode : s.constraintAt? c = some node) (henf : node.enforcingMethod? = some m)
    (hwalk : node.definition.walkFrom s.walkAt m.output = walk)
    (hconstant : node.definition.constantFrom s.constantAt m.output = constant)
    (hcell : constant = true → m.Yields (valuesFrom s.cellAt m.inputs) cell) :
    s'.Settled cells c := by
  intro node' m' hnode' henf'
  obtain rfl := Option.some.inj (hnode.symm.trans (hc.symm.trans hnode'))
  obtain rfl := Option.some.inj (henf.symm.trans henf')
  obtain ⟨i, _, hmethod⟩ := Option.bind_eq_some_iff.1 henf
  have hmem := Definition.mem_of_method? hmethod
  obtain ⟨x, hx, rfl, rfl, rfl⟩ := h.output
  -- the equations read no variable but the others, and those are the same
  have hsame : ∀ v, v ≠ m.output → SamePaint s s' v := fun v hv => samePaint_of_eq (h.other v hv)
  rw [walkAt_eq hx, constantAt_eq hx, cellAt_eq hx,
    Definition.walkFrom_congr fun v _ hv => (hsame v hv).1,
    Definition.constantFrom_congr fun v _ hv => (hsame v hv).2.1,
    valuesFrom_congr fun v hv => (hsame v ((Definition.mem_inputs_iff hmem).1 hv).2).2.2]
  exact ⟨hwalk.symm, hconstant.symm, fun _ => hcell⟩

/-! ## What a recalculation reads -/

/-- The walk strength is read off variables that exist. -/
theorem walkStrengthOf_eq {d : Definition W T} (hlive : ∀ v ∈ d.vars, (s.variableAt? v).isSome) :
    s.walkStrengthOf d o = .ok (d.walkFrom s.walkAt o) := by
  -- the loop over any of the methods, from any walk strength on; the look-ups cannot fail
  have hfold : ∀ (ms : List (Method W T)) (a : Strength), (∀ m ∈ ms, m ∈ d.methods) →
      ms.foldlM (fun walk m =>
        if m.output = o then pure walk
        else do return walk.weakestOf (← s.lookupVariable m.output).walkStrength) a =
      (.ok ((ms.filter (·.output ≠ o)).foldl
        (fun held m => held.weakestOf (s.walkAt m.output)) a) : Except SolveError _) := by
    intro ms a hms
    induction ms generalizing a with
    | nil => rfl
    | cons m ms ih =>
      have hrest : ∀ n ∈ ms, n ∈ d.methods := fun n hn => hms n (List.mem_cons_of_mem m hn)
      rw [List.foldlM_cons]
      by_cases hm : m.output = o
      · rw [if_pos hm, List.filter_cons_of_neg (by simpa using hm)]
        exact ih a hrest
      · obtain ⟨x, hx⟩ := Option.isSome_iff_exists.1
          (hlive _ (Definition.output_mem_vars (hms m List.mem_cons_self)))
        rw [if_neg hm, List.filter_cons_of_pos (by simpa using hm), lookupVariable_eq_ok hx,
          List.foldl_cons, walkAt_eq hx]
        exact ih _ hrest
  exact hfold d.methods d.strength fun _ hm => hm

/-- The constancy is read off variables that exist. -/
theorem constancyOf_eq {d : Definition W T} (hlive : ∀ v ∈ d.vars, (s.variableAt? v).isSome) :
    s.constancyOf d o = .ok (d.constantFrom s.constantAt o) := by
  -- the loop over any of the variables, from any verdict on; the look-ups cannot fail
  have hfold : ∀ (vs : List VarId) (a : Bool), (∀ v ∈ vs, v ∈ d.vars) →
      vs.foldlM (fun constant v =>
        if v = o then pure constant
        else do return constant && (← s.lookupVariable v).constant) a =
      (.ok (a && (vs.filter (· ≠ o)).all s.constantAt) : Except SolveError _) := by
    intro vs a hvs
    induction vs generalizing a with
    | nil => simp; rfl
    | cons v vs ih =>
      have hrest : ∀ u ∈ vs, u ∈ d.vars := fun u hu => hvs u (List.mem_cons_of_mem v hu)
      rw [List.foldlM_cons]
      by_cases hv : v = o
      · rw [if_pos hv, List.filter_cons_of_neg (by simpa using hv)]
        exact ih a hrest
      · obtain ⟨x, hx⟩ := Option.isSome_iff_exists.1 (hlive v (hvs v List.mem_cons_self))
        rw [if_neg hv, List.filter_cons_of_pos (by simpa using hv), lookupVariable_eq_ok hx,
          List.all_cons, constantAt_eq hx, ← Bool.and_assoc]
        exact ih _ hrest
  exact hfold d.vars (!d.volatile) fun _ hv => hv

/-- The input values are read off variables that exist. -/
theorem gather_eq {vs : List VarId} (hlive : ∀ v ∈ vs, (s.variableAt? v).isSome) :
    s.gather vs = .ok (valuesFrom s.cellAt vs) := by
  induction vs with
  | nil => rfl
  | cons v vs ih =>
    obtain ⟨x, hx⟩ := Option.isSome_iff_exists.1 (hlive v List.mem_cons_self)
    unfold gather valuesFrom
    rw [lookupVariable_eq_ok hx, cellAt_eq hx, ih fun u hu => hlive u (List.mem_cons_of_mem v hu)]
    cases hcell : x.cell <;> simp only [bind, Except.bind, hcell] <;> rfl

/-- The effect of a walk: it repaints the graph, and does not touch a variable that no constraint
determines. -/
structure Walked (s s' : Solver W T) : Prop extends Repaints s s' where
  /-- A variable that no constraint determines is the same. -/
  undetermined : ∀ v, (∀ c, ¬ s.Determines c v) → s'.variableAt? v = s.variableAt? v

/-- One walk after another is a walk. Repainting moves no determiner, so what is undetermined stays
so. -/
theorem Walked.transitive : SolveM.Transitive (Walked (W := W) (T := T)) where
  refl s := ⟨Repaints.transitive.refl s, fun _ _ => rfl⟩
  trans h h' :=
    ⟨Repaints.transitive.trans h.toRepaints h'.toRepaints, fun v hv =>
      (h'.undetermined v fun c hc => hv c (h.determines.1 hc)).trans (h.undetermined v hv)⟩

end Solver

/-! ## What a recalculation does -/

namespace SolveM

variable {W T : Type} {m : Machine W T} {c : ConstraintId} {node : Constraint W T}
  {method : Method W T}

/-- Executing a method runs it on the present values of its inputs and stores what comes of it. -/
theorem ensures_execute_stores {i : Nat} (h : m.solver.Grounded)
    (hnode : m.solver.constraintAt? c = some node) (hmethod : node.definition.method? i = some method) :
    Ensures (execute c i) m fun r m' => r = .ok () ∧
      (∀ v, m'.solver.variableAt? v = (m.solver.variableAt? v).map fun x =>
        if v = method.output then
          { x with cell :=
              (method.runOn (valuesFrom m.solver.cellAt method.inputs) m.world).1.store x.cell }
        else x) ∧
      m'.world = (method.runOn (valuesFrom m.solver.cellAt method.inputs) m.world).2 ∧
      m'.deeds = .executed c method.output (valuesFrom m.solver.cellAt method.inputs) :: m.deeds := by
  have hmem := Definition.mem_of_method? hmethod
  have hinputs : ∀ v ∈ method.inputs, (m.solver.variableAt? v).isSome :=
    fun v hv => h.mentioned hnode v ((Definition.mem_inputs_iff hmem).1 hv).1
  obtain ⟨x, hx⟩ := Option.isSome_iff_exists.1
    (h.mentioned hnode _ (Definition.output_mem_vars hmem))
  -- the change of the output is one change among the look-ups of all variables
  have hwrite : ∀ (cell : Cell T) (f : Cell T → Cell T), f x.cell = cell → ∀ v,
      (m.solver.modifyVariable method.output fun x => { x with cell := cell }).variableAt? v =
        (m.solver.variableAt? v).map fun x =>
          if v = method.output then { x with cell := f x.cell } else x := by
    rintro _ f rfl v
    rw [Solver.variableAt?_modifyVariable]
    by_cases hv : v = method.output
    · subst hv
      simp [hx]
    · simp [hv]
  have hkeep : ∀ v, m.solver.variableAt? v = (m.solver.variableAt? v).map fun x =>
      if v = method.output then { x with cell := Outcome.keep.store x.cell } else x := by
    simp [Outcome.store]
  unfold execute
  rw [ensures_bind, ensures_getConstraint, Solver.lookupConstraint_eq_ok hnode]
  simp only [hmethod, ensures_bind, ensures_query]
  rw [Solver.gather_eq hinputs]
  simp only [ensures_runOn]
  -- a faulty input poisons the output without the method being run
  cases hvalues : valuesFrom m.solver.cellAt method.inputs with
  | error cause =>
    simp only [ensures_count]
    refine .getVariable (x := x) hx ?_
    simp only [ensures_bind, ensures_note, ensures_count]
    refine .changeVariable (x := x) hx ?_
    exact ⟨trivial, hwrite _ _ rfl, rfl, rfl⟩
  | ok values =>
    simp only [ensures_count, Method.runOn]
    refine .getVariable (x := x) hx ?_
    cases hrun : (method.run values m.world).1 with
    | assign value =>
      simp only [ensures_bind, ensures_note]
      refine .changeVariable (x := x) hx ?_
      exact ⟨trivial, hwrite _ _ rfl, rfl, rfl⟩
    | keep =>
      simp only [ensures_note]
      exact ⟨trivial, hkeep, trivial, rfl⟩
    | fail cause =>
      simp only [ensures_bind, ensures_note, ensures_count]
      refine .changeVariable (x := x) hx ?_
      exact ⟨trivial, hwrite _ _ rfl, rfl, rfl⟩

/-- Running a method stores the outcome in its output, and leaves the other cells alone. -/
theorem ensures_execute_cellAt {i : Nat} (h : m.solver.Grounded)
    (hnode : m.solver.constraintAt? c = some node) (hmethod : node.definition.method? i = some method) :
    Ensures (execute c i) m fun r m' => r = .ok () ∧
      m'.world = (method.runOn (valuesFrom m.solver.cellAt method.inputs) m.world).2 ∧
      ∀ v, m'.solver.cellAt v = if v = method.output then
        (method.runOn (valuesFrom m.solver.cellAt method.inputs) m.world).1.store
          (m.solver.cellAt v) else m.solver.cellAt v := by
  obtain ⟨x, hx⟩ := Option.isSome_iff_exists.1
    (h.mentioned hnode _ (Definition.output_mem_vars (Definition.mem_of_method? hmethod)))
  refine (ensures_execute_stores h hnode hmethod).mono ?_
  rintro r m' ⟨hr, hv, hworld, _⟩
  refine ⟨hr, hworld, fun v => ?_⟩
  -- the outcome goes into the output, and no other cell is touched
  by_cases hvo : v = method.output
  · subst hvo
    have hx' := hv method.output
    rw [hx, Option.map_some, if_pos rfl] at hx'
    rw [if_pos rfl, Solver.cellAt_eq hx', Solver.cellAt_eq hx]
  · have hsame := hv v
    simp only [hvo, if_false, Option.map_id'] at hsame
    rw [if_neg hvo]
    exact (Solver.samePaint_of_eq hsame).2.2

/-- Recalculating a constraint without a method in force comes to nothing. -/
theorem ensures_recalculate_of_not_determines (hidle : ∀ v, ¬ m.solver.Determines c v) :
    Ensures (recalculate c) m fun r m' => m' = m ∧ ((m.solver.constraintAt? c).isSome → r = .ok ()) := by
  unfold recalculate
  rw [ensures_bind, ensures_getConstraint, Solver.lookupConstraint]
  cases hnode : m.solver.constraintAt? c with
  | none =>
    refine ⟨rfl, fun hlive => ?_⟩
    cases hlive
  | some node =>
    have hout : node.output? = none :=
      Option.eq_none_iff_forall_ne_some.2 fun v hv => hidle v ⟨node, hnode, hv⟩
    simp only [hout]
    -- without an output the method in force is not asked for
    cases node.enforcing <;> exact (ensures_pure _).2 ⟨rfl, fun _ => rfl⟩

/-- What recalculating a constraint with a method in force comes to. The output gets the walk strength
and the constancy that the constraint gives it. If it is constant, the method is run on the present
values of its inputs, which is noted, and the outcome is stored. -/
theorem ensures_recalculate_stores {walk : Strength} {constant : Bool}
    {values : Except FormulaError (List T)} (h : m.solver.Grounded)
    (hnode : m.solver.constraintAt? c = some node) (hmethod : node.enforcingMethod? = some method)
    (hwalk : node.definition.walkFrom m.solver.walkAt method.output = walk)
    (hconstant : node.definition.constantFrom m.solver.constantAt method.output = constant)
    (hvalues : valuesFrom m.solver.cellAt method.inputs = values) :
    Ensures (recalculate c) m fun r m' => r = .ok () ∧
      (∀ v, m'.solver.variableAt? v = (m.solver.variableAt? v).map fun x =>
        if v = method.output then
          { x with
            walkStrength := walk
            constant := constant
            cell := if constant then (method.runOn values m.world).1.store x.cell else x.cell }
        else x) ∧
      m'.world = (if constant then (method.runOn values m.world).2 else m.world) ∧
      m'.deeds = (if constant then [.executed c method.output values] else []) ++ m.deeds := by
  obtain ⟨i, hi, hget⟩ := Option.bind_eq_some_iff.1 hmethod
  have hout : node.output? = some method.output := by
    rw [Constraint.output?, hmethod]
    rfl
  have hlive := h.mentioned hnode
  obtain ⟨x, hx⟩ := Option.isSome_iff_exists.1
    (hlive _ (Definition.output_mem_vars (Definition.mem_of_method? hget)))
  unfold recalculate
  rw [ensures_bind]
  refine .getConstraint hnode ?_
  simp only [hi, hout, ensures_bind, ensures_query, Solver.walkStrengthOf_eq hlive,
    Solver.constancyOf_eq hlive, hwalk, hconstant]
  refine .changeVariable hx ?_
  -- what matters of the graph with the new flags, before the method is run
  have hrepaint := Solver.repaints_modifyVariable (W := W)
    (f := fun x : Variable T => { x with walkStrength := walk, constant := constant })
    (by intro; rfl) method.output m.solver
  have hcell := m.solver.cellAt_modifyVariable (v := method.output)
    (f := fun x => { x with walkStrength := walk, constant := constant }) fun _ => rfl
  have hflags := Solver.variableAt?_modifyVariable m.solver method.output
    (f := fun x => { x with walkStrength := walk, constant := constant })
  simp only
  generalize m.solver.modifyVariable method.output (fun x =>
    { x with walkStrength := walk, constant := constant }) = s₁ at hrepaint hcell hflags ⊢
  -- only a constant output is computed here; the others wait for a plan
  cases constant with
  | false =>
    refine (ensures_pure _).2 ⟨rfl, fun v => ?_, rfl, rfl⟩
    rw [hflags]
    by_cases hv : v = method.output <;> simp [hv]
  | true =>
    have hground := h.of_declared (fun c => congrArg _ (hrepaint.constraintAt c)) hrepaint.live
    refine (ensures_execute_stores (m := ⟨s₁, m.world, m.journal⟩) hground
      ((hrepaint.constraintAt c).trans hnode) hget).mono ?_
    rintro r m' ⟨rfl, hvars, hworld, hdeeds⟩
    -- the flags of the output are no cells
    rw [funext hcell, hvalues] at hvars hworld hdeeds
    refine ⟨rfl, fun v => ?_, hworld, hdeeds⟩
    rw [hvars, hflags]
    by_cases hv : v = method.output
    · subst hv
      simp [Function.comp_def]
    · simp [hv]

/-- Recalculating a constraint settles it, and changes no variable but the one that it
determines. -/
theorem ensures_recalculate (cells : Prop) (h : m.solver.Grounded)
    (hnode : m.solver.constraintAt? c = some node) :
    Ensures (recalculate c) m fun r m' => r = .ok () ∧ m.solver.Walked m'.solver ∧
      m'.solver.Settled cells c ∧
      ∀ v, ¬ m.solver.Determines c v → m'.solver.variableAt? v = m.solver.variableAt? v := by
  -- that a recalculation repaints is known; it is settled with respect to what it repaints
  suffices hmain : Ensures (recalculate c) m fun r m' => r = .ok () ∧
      (m.solver.Repaints m'.solver → m'.solver.Settled cells c) ∧
      ∀ v, ¬ m.solver.Determines c v → m'.solver.variableAt? v = m.solver.variableAt? v by
    refine ((recalculate_repaints c m).and hmain).mono ?_
    rintro r m' ⟨hr, hok, hsettled, hsame⟩
    exact ⟨hok, ⟨hr, fun v hv => hsame v (hv c)⟩, hsettled hr, hsame⟩
  cases hmethod : node.enforcingMethod? with
  | none =>
    have hidle : ∀ v, ¬ m.solver.Determines c v := by
      rintro v ⟨n, hn, hout⟩
      obtain rfl := Option.some.inj (hnode.symm.trans hn)
      rw [Constraint.output?, hmethod] at hout
      cases hout
    refine (ensures_recalculate_of_not_determines hidle).mono ?_
    rintro r _ ⟨rfl, hok⟩
    exact ⟨hok (hnode ▸ rfl), fun _ => Solver.settled_of_not_determines hidle, fun _ _ => rfl⟩
  | some method =>
    obtain ⟨i, _, hget⟩ := Option.bind_eq_some_iff.1 hmethod
    obtain ⟨x, hx⟩ := Option.isSome_iff_exists.1
      (h.mentioned hnode _ (Definition.output_mem_vars (Definition.mem_of_method? hget)))
    refine (ensures_recalculate_stores h hnode hmethod rfl rfl rfl).mono ?_
    rintro r m' ⟨rfl, hvars, -, -⟩
    have hother : ∀ v, v ≠ method.output → m'.solver.variableAt? v = m.solver.variableAt? v := by
      intro v hv
      simp [hvars, hv]
    have hdet : m.solver.Determines c method.output :=
      ⟨node, hnode, by rw [Constraint.output?, hmethod]; rfl⟩
    refine ⟨rfl, fun hr => ?_, fun v hv => hother v fun he => hv (he ▸ hdet)⟩
    refine Solver.Paints.settled ⟨⟨_, by rw [hvars, hx, Option.map_some, if_pos rfl], rfl, rfl, rfl⟩,
      hother⟩ (hr.constraintAt c) hnode hmethod rfl rfl fun hconstant => ?_
    change method.Yields _ (if _ then _ else x.cell)
    rw [if_pos hconstant]
    exact method.yields_store _ m.world x.cell

end SolveM

end DeltaBlue
