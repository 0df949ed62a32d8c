import DeltaBlue.Proofs.Scheduling

/-!
# Running the steps of a plan

A step that runs a method in force stores in the method's output what the method makes of the present
cells of its inputs (`Solver.Holds`). If the steps stand in an order in which they can be run, no later
step writes an input or the output of an earlier one; so when all have been run they all hold at once.

What a method gives may depend on the world outside. Here it must not depend on how the world changes
while the steps are run (`Solver.Undisturbed`).
-/

namespace DeltaBlue

namespace Solver

variable {W T : Type}

/-- The output of the constraint has the cell that the method in force gives for the present cells of
its inputs in a world, or, if the method leaves its output alone, the cell from before. -/
def Holds (s : Solver W T) (w : W) (before : VarId → Cell T) (c : ConstraintId) : Prop :=
  ∀ ⦃node method⦄, s.constraintAt? c = some node → node.enforcingMethod? = some method →
    s.cellAt method.output =
      (method.runOn (valuesFrom s.cellAt method.inputs) w).1.store (before method.output)

/-- As long as only methods in force are run, the world stays among some worlds in all of which they
give the same outcomes. -/
structure Undisturbed (s : Solver W T) (during : W → Prop) : Prop where
  /-- A run leads from such a world to such a world. -/
  world : ∀ {c node method}, s.constraintAt? c = some node →
    node.enforcingMethod? = some method → ∀ values w, during w → during (method.run values w).2
  /-- The outcome of a run is the same in all of them. -/
  outcome : ∀ {c node method}, s.constraintAt? c = some node →
    node.enforcingMethod? = some method → ∀ values w w', during w → during w' →
      (method.run values w).1 = (method.run values w').1

variable {s s' : Solver W T} {w : W} {before : VarId → Cell T} {during : W → Prop}
  {c : ConstraintId} {node : Constraint W T} {method : Method W T} {step : PlanStep}

/-- A step runs the method in force of a constraint, which has the output of the step. -/
theorem InForce.enforcingMethod (h : s.InForce step) :
    ∃ node method, s.constraintAt? step.constraint = some node ∧
      node.enforcingMethod? = some method ∧ node.definition.method? step.method = some method ∧
      method.output = step.output := by
  obtain ⟨node, hnode, hi, hout⟩ := h
  obtain ⟨j, method, hj, hmethod, ho⟩ := Constraint.output?_eq_some_iff.1 hout
  obtain rfl := Option.some.inj (hi.symm.trans hj)
  refine ⟨node, method, hnode, ?_, hmethod, ho⟩
  rw [Constraint.enforcingMethod?, hi]
  exact hmethod

/-- Whether methods in force are undisturbed is read off the constraints. -/
theorem Undisturbed.congr (h : s.Undisturbed during)
    (hc : ∀ c, s'.constraintAt? c = s.constraintAt? c) : s'.Undisturbed during where
  world hnode := h.world ((hc _).symm.trans hnode)
  outcome hnode := h.outcome ((hc _).symm.trans hnode)

/-- A run leads from one of the worlds to one of them, also when it fails for want of a value. -/
theorem Undisturbed.runOn_world (h : s.Undisturbed during) (hnode : s.constraintAt? c = some node)
    (hmethod : node.enforcingMethod? = some method) (values : Except FormulaError (List T))
    (hw : during w) : during (method.runOn values w).2 := by
  cases values with
  | error cause => exact hw
  | ok values => exact h.world hnode hmethod values w hw

/-- The outcome of a run is the same in all the worlds, also when it fails for want of a value. -/
theorem Undisturbed.runOn_outcome (h : s.Undisturbed during)
    (hnode : s.constraintAt? c = some node) (hmethod : node.enforcingMethod? = some method)
    (values : Except FormulaError (List T)) {w' : W} (hw : during w) (hw' : during w') :
    (method.runOn values w).1 = (method.runOn values w').1 := by
  cases values with
  | error cause => rfl
  | ok values => exact h.outcome hnode hmethod values w w' hw hw'

/-- A change of cells keeps a graph well-formed. -/
theorem Rewrites.wellFormed (hr : s.Rewrites s') (h : s.WellFormed) : s'.WellFormed :=
  h.of_links hr.constraintAt fun v => by
    obtain ⟨cell, hv⟩ := hr.variableAt v
    rw [hv, Option.map_map]
    rfl

end Solver

namespace SolveM

open Solver (Rewrites)

variable {W T : Type} {m : Machine W T} {steps : List PlanStep}

/-- Steps that run methods in force are all run, in their order, and none fails. -/
theorem ensures_forM_execute (h : m.solver.WellFormed)
    (hforce : ∀ step ∈ steps, m.solver.InForce step) :
    Ensures (steps.forM fun step => execute step.constraint step.method) m fun r m' =>
      r = .ok ⟨⟩ ∧ m.solver.Rewrites m'.solver ∧
      m'.journal.filterMap Notice.run? =
        (steps.map fun step => (step.constraint, step.output)).reverse ++
          m.journal.filterMap Notice.run? := by
  -- along the steps: a run changes cells only, so the later steps still run methods in force
  induction steps generalizing m with
  | nil => exact (ensures_pure _).2 ⟨rfl, Rewrites.transitive.refl _, rfl⟩
  | cons step steps ih =>
    obtain ⟨node, method, hnode, _, hmethod, ho⟩ :=
      (hforce step List.mem_cons_self).enforcingMethod
    rw [List.forM, ensures_bind]
    refine ((ensures_execute_stores h.toGrounded hnode hmethod).and
      (execute_rewrites step.constraint step.method m)).mono ?_
    rintro _ m₁ ⟨⟨rfl, _, _, hdeeds⟩, hr⟩
    refine (ih (hr.wellFormed h) fun later hlater =>
      (Solver.inForce_congr hr.constraintAt).2
        (hforce later (List.mem_cons_of_mem step hlater))).mono ?_
    rintro r m' ⟨hok, hr', hran'⟩
    refine ⟨hok, Rewrites.transitive.trans hr hr', ?_⟩
    rw [hran', ← m₁.filterMap_run?_deeds, hdeeds, ho, List.filterMap_cons, m.filterMap_run?_deeds,
      List.map_cons, List.reverse_cons, List.append_assoc]
    rfl

/-- When steps have been run in an order in which they can be run, and none writes a constant, all of
them hold. No cell but those of their outputs has changed. -/
theorem ensures_forM_execute_holds {due : ConstraintId → Prop} {claimed : VarId → Prop}
    {during : W → Prop} (h : m.solver.WellFormed) (horder : m.solver.ReadyOrder due claimed steps)
    (hchangeable : ∀ v ∈ steps.map PlanStep.output, m.solver.constantAt v = false)
    (hfixed : m.solver.Undisturbed during) (hworld : during m.world) :
    Ensures (steps.forM fun step => execute step.constraint step.method) m fun _ m' =>
      (∀ v, v ∉ steps.map PlanStep.output → m'.solver.cellAt v = m.solver.cellAt v) ∧
      ∀ step ∈ steps, ∀ w, during w →
        m'.solver.Holds w m.solver.cellAt step.constraint := by
  -- along the steps, with what is due and claimed after the first one
  induction steps generalizing m due claimed with
  | nil => exact (ensures_pure _).2 ⟨fun _ _ => rfl, nofun⟩
  | cons step steps ih =>
    have hfresh := horder.outputs
    obtain ⟨_, hforce, _, hinputs, hrest⟩ := horder
    have hlater := hrest.outputs.2
    obtain ⟨node, method, hnode, henforcing, hmethod, ho⟩ := hforce.enforcingMethod
    rw [List.map_cons, List.nodup_cons] at hfresh
    rw [List.forM, ensures_bind]
    refine ((ensures_execute_cellAt h.toGrounded hnode hmethod).and
      (execute_rewrites step.constraint step.method m)).mono ?_
    rintro _ m₁ ⟨⟨rfl, hworld₁, hcell₁⟩, hr⟩
    have hconstant : ∀ v, m₁.solver.constantAt v = m.solver.constantAt v := fun v => (hr.flags v).2
    have hduring₁ : during m₁.world := hworld₁ ▸ hfixed.runOn_world hnode henforcing _ hworld
    refine ((ih (hr.wellFormed h) (hrest.congr hr.constraintAt hconstant (fun _ => id)
      fun _ => Iff.rfl) (fun v hv => (hconstant v).trans
        (hchangeable v (List.mem_cons_of_mem _ hv))) (hfixed.congr hr.constraintAt) hduring₁).and
      (Obeys.forM Rewrites.transitive (fun step => execute_rewrites _ _) m₁)).mono ?_
    rintro r m' ⟨⟨hsame, hholds⟩, hr'⟩
    -- the later steps write neither the output of this one nor what it reads
    have hout : m'.solver.cellAt step.output = m₁.solver.cellAt step.output :=
      hsame _ fun hmem => hlater _ hmem (.inl rfl)
    have hread : ∀ v ∈ method.inputs, m'.solver.cellAt v = m.solver.cellAt v := by
      intro v hv
      obtain ⟨hmem, hne⟩ := (Definition.mem_inputs_iff (Definition.mem_of_method? hmethod)).1 hv
      have hreads : m.solver.Reads step.constraint v step.output :=
        ⟨node, hnode, by rw [Constraint.output?, henforcing, Option.map_some, ho], hmem, ho ▸ hne⟩
      rw [hsame v fun hw => ?_, hcell₁, if_neg hne]
      rcases hinputs v hreads with hcl | hconst
      · exact hlater v hw (.inr hcl)
      · have hvar := hchangeable v (List.mem_cons_of_mem _ hw)
        rw [hconst] at hvar
        cases hvar
    refine ⟨fun v hv => ?_, fun later hmem w hw => ?_⟩
    · rw [List.map_cons, List.mem_cons, not_or] at hv
      rw [hsame v hv.2, hcell₁, if_neg (ho ▸ hv.1)]
    · rcases List.mem_cons.1 hmem with rfl | hmem
      · -- the first step held when it was run, and nothing that it depends on was written later
        intro n method' hn hmethod'
        obtain rfl := Option.some.inj
          (hnode.symm.trans ((hr.constraintAt _).symm.trans ((hr'.constraintAt _).symm.trans hn)))
        obtain rfl := Option.some.inj (henforcing.symm.trans hmethod')
        rw [valuesFrom_congr hread, ho, hout, hcell₁, ho, if_pos rfl,
          hfixed.runOn_outcome hnode henforcing _ hworld hw]
      · intro n method' hn hmethod'
        rw [hholds later hmem w hw hn hmethod']
        -- the output of a later step was not written by this one
        have hforce' := (Solver.inForce_congr hr.constraintAt).2 (hrest.inForce hmem)
        obtain ⟨n', method'', hn', hm'', _, ho'⟩ := hforce'.enforcingMethod
        obtain rfl := Option.some.inj (hn'.symm.trans ((hr'.constraintAt _).symm.trans hn))
        obtain rfl := Option.some.inj (hm''.symm.trans hmethod')
        rw [hcell₁, ho', ho, if_neg]
        intro he
        exact hfresh.1.1 (he ▸ List.mem_map_of_mem hmem)

end SolveM

end DeltaBlue
