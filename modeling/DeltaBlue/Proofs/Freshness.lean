import DeltaBlue.Proofs.Renewal
import DeltaBlue.Proofs.Values

/-!
# Methods have seen their inputs

A constant output is `Fresh` if the latest deed that concerns the constraint which determines it is a
run of the method in force on the present cells of its inputs. So the method was run since it was put
in force, and last on the values that its inputs have now. A recalculation refreshes an output, so all
constant outputs stay fresh while constraints are enabled and disabled. What is done aside spares them:
a value is written directly only where no output is constant, and the steps of a good plan run methods
whose outputs are not constant.

For an observer this means that it has been shown the present values of what it observes.
-/

namespace DeltaBlue

namespace Solver

variable {W T : Type} {s s' : Solver W T} {l l' : Ledger T} {c : ConstraintId}

/-- If the output of the constraint is constant, the latest deed that concerns the constraint is a run
of its method in force on the present cells of the inputs. -/
def Fresh (s : Solver W T) (l : Ledger T) (c : ConstraintId) : Prop :=
  ∀ ⦃node method⦄, s.constraintAt? c = some node → node.enforcingMethod? = some method →
    s.constantAt method.output = true →
      l c = some (.executed c method.output (valuesFrom s.cellAt method.inputs))

/-- The inputs of the method in force are variables of the constraint, and so is its output. -/
theorem Fresh.of_cells (h : s.Fresh l c) {node node' : Constraint W T} {method : Method W T}
    (hnode : s.constraintAt? c = some node) (hdef : node'.definition = node.definition)
    (henf : node'.enforcing = node.enforcing) (hmethod : node'.enforcingMethod? = some method)
    (hconstant : s.constantAt method.output = true)
    (hcells : ∀ v ∈ node.definition.vars, s'.cellAt v = s.cellAt v) (hl : l' c = l c) :
    l' c = some (.executed c method.output (valuesFrom s'.cellAt method.inputs)) := by
  rw [Constraint.enforcingMethod?, hdef, henf] at hmethod
  obtain ⟨i, _, hget⟩ := Option.bind_eq_some_iff.1 hmethod
  have hmem := Definition.mem_of_method? hget
  rw [hl, h hnode hmethod hconstant,
    valuesFrom_congr fun v hv => hcells v ((Definition.mem_inputs_iff hmem).1 hv).1]

/-- A recalculation refreshes the output. -/
theorem fresh_renewable : Renewable (Fresh (W := W) (T := T)) where
  of_idle := by
    intro s l c hidle node method hnode hmethod
    refine absurd ⟨node, hnode, ?_⟩ (hidle method.output)
    rw [Constraint.output?, hmethod]
    rfl
  of_same := by
    intro s s' l l' c h hc hv hl node' method hnode' hmethod hconstant
    obtain ⟨node, hnode, hdef, henf⟩ := hc node' hnode'
    obtain ⟨i, _, hget⟩ := Option.bind_eq_some_iff.1 hmethod
    have hout := Definition.output_mem_vars (Definition.mem_of_method? hget)
    rw [hdef] at hout
    rw [(hv node hnode _ hout).2.1] at hconstant
    exact h.of_cells hnode hdef henf hmethod hconstant (fun v hmem => (hv node hnode v hmem).2.2) hl
  of_recalculate := by
    intro m c node h hnode r m' hrun node' method hnode' hmethod hconstant
    obtain ⟨-, hw, -, hsame⟩ := SolveM.ensures_recalculate True h hnode r m' hrun
    obtain rfl := Option.some.inj (hnode'.symm.trans ((hw.constraintAt c).trans hnode))
    obtain ⟨-, hflag, hdeeds⟩ := SolveM.ensures_recalculate_does h hnode hmethod r m' hrun
    rw [← hflag, if_pos hconstant] at hdeeds
    rw [Machine.ledger_of_concerns hdeeds.2.1 (decide_eq_true rfl)]
    -- no input is the output, so the run has not changed what it was given
    have hdet : m.solver.Determines c method.output := by
      refine ⟨_, hnode, ?_⟩
      rw [Constraint.output?, hmethod]
      rfl
    obtain ⟨i, _, hget⟩ := Option.bind_eq_some_iff.1 hmethod
    rw [valuesFrom_congr fun v hv => (samePaint_of_eq (hsame v fun hdet' => ?_)).2.2]
    exact ((Definition.mem_inputs_iff (Definition.mem_of_method? hget)).1 hv).2 (hdet'.unique hdet)

end Solver

namespace SolveM

open Solver (Fresh fresh_renewable)

variable {W T : Type} {P : Solver W T → ConstraintId → Prop} {fuel : Nat} {m m' : Machine W T}

/-- Every move keeps constant outputs fresh. -/
theorem Move.fresh (hmove : Move True P fuel m m') (h : m.solver.Sound True)
    (hall : m.AllMeet Fresh) : m'.AllMeet Fresh := by
  cases hmove with
  | enable c _ hrun => exact ensures_enable_renews fresh_renewable h hall _ _ hrun
  | disable c hrun => exact ensures_disable_renews fresh_renewable h hall _ _ hrun
  | aside haside hspares hsound =>
    intro hlt c node method hnode' hmethod hconstant
    have hlt' := Nat.lt_of_le_of_lt haside.passes hlt
    -- a constraint with a method in force is enabled, so it was the same before
    obtain ⟨i, hi, hget⟩ := Option.bind_eq_some_iff.1 hmethod
    have hen := (hsound.enforcing hnode' hi).1
    have hnode := (haside.constraintAt hen).1 hnode'
    rw [(haside.flags hnode hen _
      (Definition.output_mem_vars (Definition.mem_of_method? hget))).2] at hconstant
    obtain ⟨hcells, hledger⟩ := hspares trivial hlt' hnode hmethod hconstant
    exact (hall hlt' c).of_cells hnode rfl rfl hmethod hconstant hcells hledger

/-- Moves keep constant outputs fresh. -/
theorem Moves.fresh (hmoves : Moves True P fuel m m') (h : m.solver.Sound True)
    (hall : m.AllMeet Fresh) : m'.AllMeet Fresh := by
  induction hmoves with
  | refl => exact hall
  | tail hmoves hmove ih => exact hmove.fresh (Moves.keeps hmoves h).1 ih

end SolveM

namespace Run

variable {W T : Type} {config : Config} {plans : List (Plan × Nat)} {m : Machine W T}

/-- After every call, constant outputs are fresh. -/
theorem fresh (h : Run True config plans m) : m.AllMeet Solver.Fresh := by
  induction h with
  | start w =>
    intro _ c node method hnode
    rw [Solver.constraintAt?, Solver.empty, Arena.get?_empty] at hnode
    cases hnode
  | outside w _ ih => exact ih
  | @call plans m m' r fuel call h hcall hrun ih =>
    have hsound := h.sound.1
    -- resetting the counters is no move, but it changes nothing that matters here
    by_cases hreset : call = .resetMetrics
    · subst hreset
      have hkept : SolveM.Ensures (Call.resetMetrics.run fuel) m fun _ m' =>
          m'.AllMeet Solver.Fresh := by
        unfold Call.run SolveM.resetMetrics
        rw [SolveM.ensures_bind, SolveM.ensures_count]
        exact (SolveM.ensures_pure _).2
          (Solver.fresh_renewable.alike ih ⟨fun _ => rfl, fun _ => rfl, rfl, rfl⟩ ⟨rfl, rfl⟩)
      exact hkept r m' hrun
    · exact (Call.ensures_moves (P := fun _ _ => True) hsound (careful h.sound.2 hcall) hreset
        (fun _ _ => trivial) (Call.enablesWhere_true call) r m' hrun).fresh hsound ih

end Run

end DeltaBlue
