import DeltaBlue.Proofs.Declarations
import DeltaBlue.Proofs.Halting
import DeltaBlue.Proofs.Holding
import DeltaBlue.Proofs.Validity
import DeltaBlue.Proofs.Values

/-!
# Recomputing everything

A plan for everything has one step for each determined variable that is not constant. None has more,
since a step claims its output; none is left out. For suppose one were. Its constraint was due: it is
a volatile source, or it reads another variable that is not constant, which has a step by induction
along the edges of the graph. So it waits for a variable that is not constant and has no step, against
the same induction. The outputs without a step are constant and compute from constants, which running
the plan leaves alone; so a constraint with such an output holds in the end if it held before. It did,
unless a plan was executed that some other solver built (`Run.foreign_value_not_recomputed`).
-/

namespace DeltaBlue

namespace Solver

variable {W T : Type}

/-- The seeds exist, and they are all the variables and perhaps more, or all the volatile sources and
perhaps more. -/
structure SeedsAll (s : Solver W T) (seeds : List Handle) : Prop where
  /-- The seeds exist. -/
  live : ∀ seed ∈ seeds, s.Live seed
  /-- No variable is missing, or no volatile source is. -/
  all : (∀ v, (s.variableAt? v).isSome → .var v ∈ seeds) ∨
    ∀ c, s.isVolatileSource c = true → .constraint c ∈ seeds

/-- The variables that exist, as seeds. -/
theorem seedsAll_keys (s : Solver W T) : s.SeedsAll (s.vars.keys.map .var) where
  live seed hseed := by
    obtain ⟨v, hv, rfl⟩ := List.mem_map.1 hseed
    exact Arena.mem_keys.1 hv
  all := .inl fun _ hv => List.mem_map_of_mem (Arena.mem_keys.2 hv)

/-- The computations whose results are kept are functions of their inputs alone. -/
def KeepsPure (s : Solver W T) : Prop :=
  ∀ ⦃c node method⦄, s.constraintAt? c = some node → node.enforcingMethod? = some method →
    s.constantAt method.output = true → ∀ f, method.action = .compute f → f.Pure

variable {s s' : Solver W T} {cells : Prop} {mark : Mark} {c : ConstraintId} {v : VarId}
  {due : ConstraintId → Prop} {claimed : VarId → Prop} {steps : List PlanStep} {step : PlanStep}
  {seeds : List Handle}

/-- A volatile constraint is incident to its variables, and a constraint mentions one. -/
theorem SeedsAll.named (h : s.SeedsAll seeds) (hwf : s.WellFormed)
    (hc : s.isVolatileSource c = true) : s.Named seeds c := by
  -- a volatile source is named by its output, or by itself
  rcases h.all with hvars | hsources
  · obtain ⟨node, hnode, hsource⟩ := (Option.any_eq_true _ _).1 hc
    simp only [Bool.and_eq_true, Constraint.isEnforcing] at hsource
    obtain ⟨⟨hen, _⟩, henforcing⟩ := hsource
    obtain ⟨i, hi⟩ := Option.isSome_iff_exists.1 henforcing
    obtain ⟨_, hlt⟩ := hwf.enforcing hnode hi
    have hmem := Definition.output_mem_vars (List.getElem_mem hlt)
    obtain ⟨x, hx⟩ := Option.isSome_iff_exists.1 (hwf.mentioned hnode _ hmem)
    exact .inr ⟨_, x, hvars _ (by rw [hx]; rfl), hx, (hwf.incident hx c).2 ⟨node, hnode, hen, hmem⟩⟩
  · exact .inl (hsources c hc)

/-- A variable that is not constant is determined. -/
theorem Rest.determines_of_changeable (hrest : s.Rest cells) (h : s.WellFormed)
    (hv : s.constantAt v = false) :
    ∃ c x, s.variableAt? v = some x ∧ x.determinedBy = some c ∧ s.Determines c v := by
  cases hx : s.variableAt? v with
  | none => rw [constantAt, hx] at hv; cases hv
  | some x =>
    rw [constantAt_eq hx] at hv
    cases hdet : x.determinedBy with
    | none => rw [(hrest.released hx hdet).2] at hv; cases hv
    | some c => exact ⟨c, x, rfl, hdet, (h.determined hx c).1 hdet⟩

/-- The constraint of a variable that is not constant is a volatile source, or it reads another such
variable. -/
theorem Rest.cause_of_changeable (hrest : s.Rest cells) (h : s.WellFormed) (hc : s.Determines c v)
    (hv : s.constantAt v = false) :
    s.isVolatileSource c = true ∨ ∃ u, s.Reads c u v ∧ s.constantAt u = false := by
  obtain ⟨node, hnode, hout⟩ := hc
  obtain ⟨method, hmethod, rfl⟩ := Option.map_eq_some_iff.1 hout
  obtain ⟨i, hi, _⟩ := Option.bind_eq_some_iff.1 hmethod
  obtain ⟨_, hconstant, _⟩ := hrest.settled c hnode hmethod
  rw [hv, Definition.constantFrom, eq_comm, Bool.and_eq_false_iff, Bool.not_eq_false',
    List.all_eq_false] at hconstant
  -- at rest the equation for constancy says which of the two it is
  rcases hconstant with hvolatile | ⟨u, hu, hchangeable⟩
  · left
    simp only [isVolatileSource, hnode, Option.any_some, Bool.and_eq_true]
    exact ⟨⟨(h.enforcing hnode hi).1, hvolatile⟩, by rw [Constraint.isEnforcing, hi]; rfl⟩
  · obtain ⟨hmem, hne⟩ := List.mem_filter.1 hu
    exact .inr ⟨u, ⟨node, hnode, hout, hmem, by simpa using hne⟩, by simpa using hchangeable⟩

/-- If what is due at the start does not determine constants, no step writes a constant. -/
theorem ReadyOrder.changeable (horder : s.ReadyOrder due claimed steps) (hrest : s.Rest cells)
    (hdue : ∀ c, due c → ∀ o, s.Determines c o → s.constantAt o = false) :
    ∀ v ∈ steps.map PlanStep.output, s.constantAt v = false := by
  -- along the steps: what becomes due reads something that is not constant
  induction steps generalizing due claimed with
  | nil => exact nofun
  | cons step steps ih =>
    obtain ⟨hstep, hforce, _, _, hlater⟩ := horder
    have hout := hdue _ hstep _ hforce.determines
    rw [List.map_cons, List.forall_mem_cons]
    refine ⟨hout, ih hlater ?_⟩
    rintro c (hc | ⟨w, hr⟩) o hdet
    · exact hdue c hc o hdet
    · -- what reads the output of the step is no more constant than that
      obtain rfl := hdet.unique hr.determines
      exact SolveM.constantAt_of_reads hrest hout hr

/-- If every volatile source is due and nothing is claimed at the start, every variable that is not
constant has a step. -/
theorem Scheduled.mem_outputs (hs : s.Scheduled s' mark due steps) (h : s.WellFormed)
    (hrest : s.Rest cells) (hfresh : ∀ v, ¬ s.Claimed mark v)
    (hdue : ∀ c, s.isVolatileSource c = true → due c) (hv : s.constantAt v = false) :
    v ∈ steps.map PlanStep.output := by
  -- along the edges, which form no cycle
  induction v using (hrest.acyclic.wellFounded_feeds h).induction with
  | _ v ih =>
    obtain ⟨c, _, _, _, hc⟩ := hrest.determines_of_changeable h hv
    have hup : ∀ {u}, s.Reads c u v → s.constantAt u = false → u ∈ steps.map PlanStep.output :=
      fun hr hu => ih _ ⟨c, hr⟩ hu
    by_contra hnot
    have hfree : ¬ s'.Claimed mark v := fun hcl =>
      (hs.claimed_iff.1 hcl).elim (hfresh v) fun ⟨_, hmem⟩ => hnot hmem
    have hcause : due c ∨ ∃ u ∈ steps.map PlanStep.output, s.Reads c u v :=
      (hrest.cause_of_changeable h hc hv).imp (hdue c) fun ⟨u, hr, hu⟩ => ⟨u, hup hr hu, hr⟩
    -- it waits for a variable that has no step, and is not constant either
    obtain ⟨u, hr, hunknown⟩ := hs.waits c v hc hfree hcause
    have hu : s.constantAt u = false := by
      rw [← hs.constantAt, ← Bool.not_eq_true]
      exact fun hconst => hunknown (.inr hconst)
    obtain ⟨_, x, hx, _⟩ := hrest.determines_of_changeable h hu
    exact hunknown (.inl (hs.claimed_iff.2 (.inr ⟨by rw [hx]; rfl, hup hr hu⟩)))

end Solver

namespace SolveM

open Solver (Sound SeedsAll Scheduled Undisturbed)

variable {W T : Type} {cells : Prop} {m : Machine W T} {fuel : Nat} {seeds : List Handle}

/-- A plan for everything has a step for each variable that is not constant, and for no other. -/
theorem ensures_plan_all (h : m.solver.Sound cells) (hpasses : m.solver.passes + 1 < 2 ^ 64)
    (hseeds : m.solver.SeedsAll seeds) :
    Ensures (plan fuel seeds) m fun r m' => ∃ p mark due, r = .ok p ∧
      p.generation = m'.solver.generation ∧ m.solver.Scheduled m'.solver mark due p.steps ∧
      ∀ v, v ∈ p.steps.map PlanStep.output ↔ m.solver.constantAt v = false := by
  have hrest := h.rest (Nat.lt_of_succ_lt hpasses)
  obtain ⟨hot, hhot, hmem⟩ := Solver.exists_sources .empty hseeds.live
  have hchangeable : Changeable m.solver hot :=
    sources_changeable hrest (fun c hc => absurd hc List.not_mem_nil) hhot
  refine (ensures_plan_scheduled h.toWellFormed hhot).mono ?_
  rintro r m' ⟨_, p, rfl, hgen, hs⟩
  refine ⟨p, _, _, rfl, hgen, hs, fun v => ⟨hs.order.changeable hrest hchangeable v, fun hv => ?_⟩⟩
  exact hs.mem_outputs h.toWellFormed hrest (h.unclaimed hpasses)
    (fun c hc => (hmem c).2 (.inr ⟨hc, hseeds.named h.toWellFormed hc⟩)) hv

/-- When a plan with a step for each variable that is not constant has been executed, a constraint holds
if its output is not constant, or if it held before. If the cells of constant outputs were up to date,
every constraint holds. -/
theorem ensures_executePlan_holds {p : Plan} {due : ConstraintId → Prop} {claimed : VarId → Prop}
    {during : W → Prop} (h : m.solver.WellFormed) (hsettled : ∀ c, m.solver.Settled cells c)
    (hgen : p.generation = m.solver.generation)
    (horder : m.solver.ReadyOrder due claimed p.steps)
    (hall : ∀ v, v ∈ p.steps.map PlanStep.output ↔ m.solver.constantAt v = false)
    (hpure : m.solver.KeepsPure) (hfixed : m.solver.Undisturbed during) (hworld : during m.world) :
    Ensures (executePlan p) m fun r m' => r = .ok () ∧
      (∀ c, m'.solver.constraintAt? c = m.solver.constraintAt? c) ∧
      ∀ c w, during w → (cells ∨ (∀ o, m.solver.Determines c o → m.solver.constantAt o = false) ∨
          m.solver.Holds w m.solver.cellAt c) →
        m'.solver.Holds w m.solver.cellAt c := by
  refine ensures_executePlan_current hgen (fun _ _ _ => id) (((ensures_forM_execute h fun step =>
    horder.inForce).and (ensures_forM_execute_holds h horder (fun v hv => (hall v).1 hv) hfixed
      hworld)).mono ?_)
  rintro _ m' ⟨⟨hok, hr, _⟩, hsame, hholds⟩
  refine ⟨hok, hr.constraintAt, fun c w hw hcase node method hnode hmethod => ?_⟩
  have hnode' : m.solver.constraintAt? c = some node := (hr.constraintAt c).symm.trans hnode
  have hdet : m.solver.Determines c method.output :=
    ⟨node, hnode', by rw [Constraint.output?, hmethod, Option.map_some]⟩
  by_cases hout : method.output ∈ p.steps.map PlanStep.output
  · -- the output has a step, which is one of this constraint
    obtain ⟨step, hmem, ho⟩ := List.mem_map.1 hout
    obtain rfl := h.determines_unique (horder.inForce hmem).determines (ho ▸ hdet)
    exact hholds step hmem w hw hnode hmethod
  · -- the output is constant and has stayed, and so have its inputs
    have hconst : m.solver.constantAt method.output = true := by
      rw [← Bool.not_eq_false]
      exact fun hv => hout ((hall _).2 hv)
    obtain ⟨_, hinputs⟩ := (hsettled c).constant_of_constant hnode' hmethod hconst
    obtain ⟨i, _, hi⟩ := Option.bind_eq_some_iff.1 hmethod
    have hread : ∀ v ∈ method.inputs, m'.solver.cellAt v = m.solver.cellAt v := by
      intro v hv
      refine hsame v fun hmem => ?_
      have hvar := (hall v).1 hmem
      rw [hinputs v ((Definition.mem_inputs_iff (Definition.mem_of_method? hi)).1 hv).1] at hvar
      cases hvar
    change m'.solver.cellAt method.output =
      (method.runOn (valuesFrom m'.solver.cellAt method.inputs) w).1.store
        (m.solver.cellAt method.output)
    rw [hsame _ hout, valuesFrom_congr hread]
    obtain hcells | hchangeable | hheld := hcase
    · have hyields := (hsettled c hnode' hmethod).2.2 hcells hconst
      exact hyields.store (hpure hnode' hmethod hconst) w
    · rw [hchangeable _ hdet] at hconst
      cases hconst
    · exact hheld hnode' hmethod

end SolveM

namespace Run

open SolveM (exec Ensures)

variable {W T : Type} {own : Prop} {config : Config} {plans : List (Plan × Nat)} {m : Machine W T}

/-- Whatever is in force after the calls is the reading or a successor. -/
theorem methods_sampled {m : Machine Nat Nat}
    (hm : Call.runAll 9 sampled ⟨.empty {}, 6, []⟩ = some m) {c : ConstraintId}
    {node : Constraint Nat Nat} {method : Method Nat Nat} (hnode : m.solver.constraintAt? c = some node)
    (hmethod : node.enforcingMethod? = some method) :
    method = reading ∨ ∃ output input, method = successor output input := by
  have hstart : (Solver.empty {} : Solver Nat Nat).AllDefined fun d =>
      ∀ method ∈ d.methods, method = reading ∨ ∃ output input, method = successor output input := by
    intro c node hnode
    rw [Solver.constraintAt?_empty] at hnode
    cases hnode
  have hdefined := Call.allDefined_of_runAll ?_ hstart hm
  · obtain ⟨i, _, hi⟩ := Option.bind_eq_some_iff.1 hmethod
    exact hdefined c node hnode method (List.mem_of_getElem? hi)
  · -- each of the three constraints has one method
    simp [sampled, Definition.ofMethod]

/-- The reading is in force after the calls, and so is its successor. -/
theorem enforcing_sampled {m : Machine Nat Nat}
    (hm : Call.runAll 9 sampled ⟨.empty {}, 6, []⟩ = some m) {c : ConstraintId}
    {method : Method Nat Nat}
    (hmem : (c, method) ∈ [(⟨0, 0⟩, reading), ((⟨1, 0⟩ : ConstraintId), successor ⟨1, 0⟩ ⟨0, 0⟩)]) :
    ∃ node, m.solver.constraintAt? c = some node ∧ node.enforcingMethod? = some method := by
  have hany : (Call.runAll 9 sampled ⟨.empty {}, 6, []⟩).any (fun m =>
      ((m.solver.constraintAt? ⟨0, 0⟩).any fun node => node.enforcingMethod?.any fun method =>
        method.output = ⟨0, 0⟩ ∧ method.inputs = []) ∧
      (m.solver.constraintAt? ⟨1, 0⟩).any fun node => node.enforcingMethod?.any fun method =>
        method.output = ⟨1, 0⟩ ∧ method.inputs = [⟨0, 0⟩]) = true := by
    decide +kernel
  rw [hm] at hany
  simp only [Option.any_some, Option.any_eq_true, decide_eq_true_eq] at hany
  obtain ⟨⟨n₀, hn₀, m₀, hm₀, _, hin₀⟩, n₁, hn₁, m₁, hm₁, hout₁, hin₁⟩ := hany
  -- the methods are told apart by what they read
  have h₀ : m₀ = reading := by
    rcases methods_sampled hm hn₀ hm₀ with rfl | ⟨_, _, rfl⟩
    · rfl
    · cases hin₀
  have h₁ : m₁ = successor ⟨1, 0⟩ ⟨0, 0⟩ := by
    rcases methods_sampled hm hn₁ hm₁ with rfl | ⟨_, _, rfl⟩
    · cases hin₁
    · obtain rfl := hout₁
      obtain rfl := List.head_eq_of_cons_eq hin₁
      rfl
  rcases List.mem_pair.1 hmem with he | he <;> obtain ⟨rfl, rfl⟩ := Prod.mk.inj he
  · exact ⟨n₀, hn₀, h₀ ▸ hm₀⟩
  · exact ⟨n₁, hn₁, h₁ ▸ hm₁⟩

/-- The reading does not change the world. -/
theorem undisturbed_sampled {m : Machine Nat Nat}
    (hm : Call.runAll 9 sampled ⟨.empty {}, 6, []⟩ = some m) (w₀ : Nat) :
    m.solver.Undisturbed (· = w₀) := by
  refine ⟨fun hnode hmethod values w hw => ?_, fun _ _ _ _ _ hw hw' => by rw [hw, hw']⟩
  rcases methods_sampled hm hnode hmethod with rfl | ⟨output, input, rfl⟩
  · simp [Method.run, reading, Method.compute, apply_ite Prod.snd, hw]
  · simp [Method.run, successor, Method.compute, Compute.total, apply_ite Prod.snd, hw]

/-- A successor is a function of its input alone. -/
theorem keepsPure_sampled {m : Machine Nat Nat}
    (hm : Call.runAll 9 sampled ⟨.empty {}, 6, []⟩ = some m)
    (hchangeable : m.solver.constantAt ⟨0, 0⟩ = false) : m.solver.KeepsPure := by
  intro c node method hnode hmethod hconst f hf
  rcases methods_sampled hm hnode hmethod with rfl | ⟨output, input, rfl⟩
  · exact absurd (hchangeable.symm.trans hconst) Bool.false_ne_true
  · obtain rfl := Action.compute.inj hf
    exact fun _ _ _ => rfl

end Run

end DeltaBlue
