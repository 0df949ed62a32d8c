import DeltaBlue.Proofs.Lasting

/-!
# Guarded cells

A condition on cells, one for each variable, is kept by a method if running the method on cells that
meet it gives the output a cell that meets it. Propagation runs methods of enabled constraints only. So
if all of these keep a condition, the cells meet it after every operation, whatever the operation comes
to and whichever methods it has put in force (`SolveM.guarded_lasts`).
-/

namespace DeltaBlue

/-- Running the method on cells that meet a condition gives its output a cell that meets it. -/
def Method.Keeps {W T : Type} (m : Method W T) (P : VarId → Cell T → Prop) : Prop :=
  ∀ (cell : VarId → Cell T) (w : W), (∀ v, P v (cell v)) →
    P m.output ((m.runOn (valuesFrom cell m.inputs) w).1.store (cell m.output))

namespace Solver

variable {W T : Type} {s s' : Solver W T} {P : VarId → Cell T → Prop} {c : ConstraintId}
  {node : Constraint W T}

/-- The methods of the enabled constraints keep the condition. -/
def Tame (s : Solver W T) (P : VarId → Cell T → Prop) : Prop :=
  ∀ c node, s.constraintAt? c = some node → node.enabled = true →
    ∀ m ∈ node.definition.methods, m.Keeps P

/-- The cells meet the condition. -/
def Meets (s : Solver W T) (P : VarId → Cell T → Prop) : Prop := ∀ v, P v (s.cellAt v)

/-- The cells meet the condition, and the enabled constraints keep it. -/
def Guarded (s : Solver W T) (P : VarId → Cell T → Prop) : Prop := s.Tame P ∧ s.Meets P

/-- Fewer constraints are enabled. -/
theorem Tame.of_enabled (h : s.Tame P) (hsub : ∀ c node', s'.constraintAt? c = some node' →
    node'.enabled = true → ∃ node, s.constraintAt? c = some node ∧ node.enabled = true ∧
      node'.definition = node.definition) : s'.Tame P := by
  intro c node' hnode' hen'
  obtain ⟨node, hnode, hen, hd⟩ := hsub c node' hnode' hen'
  rw [hd]
  exact h c node hnode hen

/-- Cells that are as before meet what they met. -/
theorem Meets.of_cellAt (h : s.Meets P) (hcell : ∀ v, s'.cellAt v = s.cellAt v) : s'.Meets P :=
  fun v => hcell v ▸ h v

/-- An installation changes no cell. -/
theorem Installed.cellAt {mark : Mark} {i : Nat} {m : Method W T} {x : Variable T}
    (hi : s.Installed s' mark c node i m x) (v : VarId) : s'.cellAt v = s.cellAt v :=
  cellAt_of_map (hi.variableAt v) fun _ => rfl

/-- A constraint that leaves the graph takes no cell with it. -/
theorem Detached.cellAt (hd : s.Detached s' c node) (v : VarId) : s'.cellAt v = s.cellAt v := by
  refine cellAt_of_map (hd.variableAt v) fun x => ?_
  simp only
  split <;> split <;> rfl

/-- A constraint that enters the graph changes no cell. -/
theorem Entered.cellAt (he : s.Entered s' c node) (v : VarId) : s'.cellAt v = s.cellAt v := by
  refine cellAt_of_map (he.variableAt v) fun x => ?_
  split <;> rfl

/-- A mark is no cell. -/
theorem cellAt_marked (v : VarId) (mark : Mark) (u : VarId) :
    (s.modifyVariable v fun x => { x with mark := mark }).cellAt u = s.cellAt u :=
  cellAt_of_map (variableAt?_marked v mark u) fun _ => rfl

/-- Enabling a constraint leaves the cells guarded, if its methods keep the condition. -/
theorem Guarded.entered (h : s.Guarded P) (he : s.Entered s' c node)
    (hkeeps : ∀ m ∈ node.definition.methods, m.Keeps P) : s'.Guarded P := by
  refine ⟨fun k n hn hen => ?_, h.2.of_cellAt he.cellAt⟩
  obtain ⟨_, rfl⟩ | ⟨_, hn⟩ := he.reset.found hn
  · exact hkeeps
  · exact h.1 k n hn hen

/-- After a constraint has left the graph, only the others have to keep the condition. -/
theorem Detached.guarded (hd : s.Detached s' c node) (hmeets : s.Meets P)
    (hkeeps : ∀ k n, k ≠ c → s.constraintAt? k = some n → n.enabled = true →
      ∀ m ∈ n.definition.methods, m.Keeps P) : s'.Guarded P := by
  refine ⟨fun k n hn hen => ?_, hmeets.of_cellAt hd.cellAt⟩
  obtain ⟨hk, hn⟩ := hd.of_enabled hn hen
  exact hkeeps k n hk hn hen

end Solver

namespace SolveM

open Solver (Guarded)
open Machine (Lasts)

variable {W T : Type} {m : Machine W T} {P : VarId → Cell T → Prop}

/-- A recalculation changes the cell of the variable that the constraint determines, if any, and
changes it by running the method in force. -/
theorem ensures_recalculate_cellAt (c : ConstraintId) (h : m.solver.WellFormed) :
    Ensures (recalculate c) m fun _ m' => ∀ v, m'.solver.cellAt v = m.solver.cellAt v ∨
      ∃ node method w, m.solver.constraintAt? c = some node ∧
        node.enforcingMethod? = some method ∧ method.output = v ∧ m'.solver.cellAt v =
          (method.runOn (valuesFrom m.solver.cellAt method.inputs) w).1.store
            (m.solver.cellAt v) := by
  unfold recalculate
  rw [ensures_bind, ensures_getConstraint, Solver.lookupConstraint]
  cases hnode : m.solver.constraintAt? c with
  | none => exact fun _ => .inl rfl
  | some node =>
    simp only
    split
    · -- the flags are stored first, and then the method is run if the output is constant
      next i o hi ho =>
      obtain ⟨j, method, hj, hmethod, rfl⟩ := Constraint.output?_eq_some_iff.1 ho
      obtain rfl := Option.some.inj (hi.symm.trans hj)
      have henf : node.enforcingMethod? = some method := by
        rw [Constraint.enforcingMethod?, hi]
        exact hmethod
      have hlive := h.mentioned hnode
      obtain ⟨x, hx⟩ := Option.isSome_iff_exists.1
        (hlive _ (Definition.output_mem_vars (Definition.mem_of_method? hmethod)))
      simp only [ensures_bind, ensures_query, Solver.walkStrengthOf_eq hlive,
        Solver.constancyOf_eq hlive]
      refine .changeVariable hx ?_
      simp only
      generalize node.definition.walkFrom m.solver.walkAt method.output = walk
      generalize node.definition.constantFrom m.solver.constantAt method.output = constant
      -- the flags of the output are no cells
      have hrepaint := Solver.repaints_modifyVariable (W := W)
        (f := fun x : Variable T => { x with walkStrength := walk, constant := constant })
        (by intro; rfl) method.output m.solver
      have hcell := m.solver.cellAt_modifyVariable (v := method.output)
        (f := fun x => { x with walkStrength := walk, constant := constant }) fun _ => rfl
      generalize m.solver.modifyVariable method.output (fun x =>
        { x with walkStrength := walk, constant := constant }) = s₁ at hrepaint hcell ⊢
      split
      · refine (ensures_execute_cellAt (m := ⟨s₁, m.world, m.journal⟩)
          (h.repaints hrepaint).toGrounded ((hrepaint.constraintAt c).trans hnode) hmethod).mono ?_
        rintro r m' ⟨_, _, hcells⟩ v
        rw [hcells, funext hcell]
        split
        · next hv => exact .inr ⟨node, method, m.world, rfl, henf, hv.symm, rfl⟩
        · exact .inl rfl
      · exact (ensures_pure _).2 fun v => .inl (hcell v)
    · exact (ensures_pure _).2 fun _ => .inl rfl

/-- Guarded cells stay guarded. -/
theorem guarded_lasts (P : VarId → Cell T → Prop) (mark : Mark) :
    Lasts (W := W) (fun m => m.solver.Guarded P) False mark where
  onAlike hc hv _ h := ⟨h.1.of_enabled fun c _ hn hen => ⟨_, hc c ▸ hn, hen, rfl⟩,
    h.2.of_cellAt fun v => (Solver.samePaint_of_eq (hv v)).2.2⟩
  onClaim v h := ⟨h.1.of_enabled fun c _ hn hen => ⟨_, hn, hen, rfl⟩,
    h.2.of_cellAt (Solver.cellAt_marked v mark)⟩
  onRecalculate := by
    rintro m c h ⟨htame, hmeets⟩
    refine ((recalculate_repaints c m).and (ensures_recalculate_cellAt c h)).mono ?_
    rintro r m' ⟨hr, hcells⟩
    refine ⟨htame.of_enabled fun k _ hn hen => ⟨_, hr.constraintAt k ▸ hn, hen, rfl⟩, fun v => ?_⟩
    rcases hcells v with hsame | ⟨node, method, w, hnode, henf, rfl, hcell⟩
    · exact hsame ▸ hmeets v
    · -- a constraint with a method in force is enabled
      obtain ⟨i, hi, hmethod⟩ := Option.bind_eq_some_iff.1 henf
      rw [hcell]
      exact htame c node hnode (h.enforcing hnode hi).1 method (Definition.mem_of_method? hmethod)
        m.solver.cellAt w hmeets
  onInstall _ hi _ h := by
    refine ⟨h.1.of_enabled fun k n' hn' hen => ?_, h.2.of_cellAt hi.cellAt⟩
    -- an installation enables nothing and leaves the methods of each constraint alone
    obtain ⟨n, hn, hdeclared, henabled⟩ := hi.constraint_of hn'
    exact ⟨n, hn, henabled ▸ hen, congrArg Prod.fst hdeclared⟩
  onDetach _ _ _ _ _ _ hd _ h := hd.guarded h.2 fun k n _ hn hen => h.1 k n hn hen

end SolveM

end DeltaBlue
