import DeltaBlue.Proofs.Halting
import DeltaBlue.Proofs.Validity

/-!
# What a plan covers

A constraint belongs into a plan if it is a volatile source that the seeds name, or reads what the
plan computes, and if all that it reads is constant or computed by the plan. The constraints that a
plan schedules are the least set that is closed under this rule (`Solver.ScheduleClosed`). The set is
closed, since a constraint that was due and has not become a step waits for a variable that is
neither constant nor computed; and it is the least one, since by induction along the steps everything
that is due, and everything that was claimed, is owed to a member of any closed set. The rule asks
only which seeds there are, so neither their order nor their repetition matters. Beside this, planning
begins a pass, claims the outputs of the steps and counts the plan, and does nothing else.
-/

namespace DeltaBlue

namespace Solver

variable {W T : Type}

/-- The set holds every constraint with a method in force that is a volatile source named by the
seeds, or reads the output of a member, if its other variables are constant or outputs of members. -/
def ScheduleClosed (s : Solver W T) (seeds : List Handle) (S : Set ConstraintId) : Prop :=
  ∀ c o, s.Determines c o →
    (s.isVolatileSource c = true ∧ s.Named seeds c ∨
      ∃ k ∈ S, ∃ v, s.Determines k v ∧ s.Reads c v o) →
    (∀ v, s.Reads c v o → s.constantAt v = true ∨ ∃ k ∈ S, s.Determines k v) → c ∈ S

variable {s s' : Solver W T} {mark : Mark} {due : ConstraintId → Prop} {claimed : VarId → Prop}
  {steps before after : List PlanStep} {step : PlanStep} {seeds : List Handle}
  {S : Set ConstraintId}

/-- Variables may be changed before or after a pass is counted. -/
theorem modifyVariables_passes (n : Nat) (vs : List VarId) (f : Variable T → Variable T) :
    ({ s with passes := n } : Solver W T).modifyVariables vs f =
      { s.modifyVariables vs f with passes := n } := by
  induction vs generalizing s with
  | nil => rfl
  | cons v vs ih => exact ih (s := s.modifyVariable v f)

/-- The rule asks only which seeds there are. -/
theorem scheduleClosed_congr {seeds' : List Handle} (h : ∀ x, x ∈ seeds' ↔ x ∈ seeds) :
    s.ScheduleClosed seeds' S ↔ s.ScheduleClosed seeds S := by
  unfold ScheduleClosed Named
  simp only [h]

/-- A step reads what is constant, what was claimed at the start and what earlier steps write. -/
theorem ReadyOrder.inputs (h : s.ReadyOrder due claimed (before ++ step :: after)) {v : VarId}
    (hr : s.Reads step.constraint v step.output) :
    s.constantAt v = true ∨ claimed v ∨ v ∈ before.map PlanStep.output := by
  -- along the steps before, each of which claims its output for those after it
  induction before generalizing due claimed with
  | nil => exact (h.2.2.2.1 v hr).symm.imp_right .inl
  | cons first rest ih =>
    rcases ih h.2.2.2.2 with hconst | (rfl | hcl) | hmem
    · exact .inl hconst
    · exact .inr (.inr List.mem_cons_self)
    · exact .inr (.inl hcl)
    · exact .inr (.inr (List.mem_cons_of_mem _ hmem))

/-- If what is due at the start is due by the rule, and what is claimed is the output of a member, the
steps are steps of members. -/
theorem ReadyOrder.mem_of_closed (h : s.ReadyOrder due claimed steps)
    (hS : s.ScheduleClosed seeds S)
    (hdue : ∀ c, due c → s.isVolatileSource c = true ∧ s.Named seeds c ∨
      ∃ k ∈ S, ∃ v w, s.Determines k v ∧ s.Reads c v w)
    (hclaimed : ∀ v, claimed v → ∃ k ∈ S, s.Determines k v) :
    ∀ step ∈ steps, step.constraint ∈ S := by
  -- along the steps: what is due and claimed after one of them is owed to a member again
  induction steps generalizing due claimed with
  | nil => exact nofun
  | cons step rest ih =>
    obtain ⟨hstep, hforce, _, hinputs, hrest⟩ := h
    have hmem : step.constraint ∈ S := by
      refine hS _ _ hforce.determines ?_ fun v hr => (hinputs v hr).symm.imp_right (hclaimed v)
      refine (hdue _ hstep).imp_right fun ⟨k, hk, v, w, hdet, hr⟩ => ⟨k, hk, v, hdet, ?_⟩
      rwa [hforce.determines.unique hr.determines]
    rw [List.forall_mem_cons]
    refine ⟨hmem, ih hrest ?_ ?_⟩
    · rintro c (hc | ⟨w, hr⟩)
      · exact hdue c hc
      · exact .inr ⟨_, hmem, _, w, hforce.determines, hr⟩
    · rintro v (rfl | hv)
      · exact ⟨_, hmem, hforce.determines⟩
      · exact hclaimed v hv

/-- If the sources that the seeds name were due, the constraints that were scheduled are closed under
the rule. -/
theorem Scheduled.closed (hs : s.Scheduled s' mark due steps) (h : s.WellFormed)
    (hfresh : ∀ v, ¬ s.Claimed mark v)
    (hdue : ∀ c, s.isVolatileSource c = true → s.Named seeds c → due c) :
    s.ScheduleClosed seeds {c | c ∈ steps.map PlanStep.constraint} := by
  -- a member determines an output of the plan, which is claimed in the end
  have houtput : ∀ {k v}, k ∈ steps.map PlanStep.constraint → s.Determines k v →
      v ∈ steps.map PlanStep.output := by
    intro k v hk hdet
    obtain ⟨step, hmem, rfl⟩ := List.mem_map.1 hk
    rw [hdet.unique (hs.order.inForce hmem).determines]
    exact List.mem_map_of_mem hmem
  intro c o hdet hcause hknown
  by_contra hnot
  have hfree : ¬ s'.Claimed mark o := by
    rw [hs.claimed_iff]
    rintro (hcl | ⟨_, hmem⟩)
    · exact hfresh o hcl
    · obtain ⟨step, hstep, rfl⟩ := List.mem_map.1 hmem
      have hdet' := (hs.order.inForce hstep).determines
      exact hnot (List.mem_map.2 ⟨step, hstep, h.determines_unique hdet' hdet⟩)
  have hcause' : due c ∨ ∃ v ∈ steps.map PlanStep.output, s.Reads c v o :=
    hcause.imp (fun ⟨hc, hn⟩ => hdue c hc hn) fun ⟨k, hk, v, hkv, hr⟩ => ⟨v, houtput hk hkv, hr⟩
  -- a constraint that is not scheduled waits for a variable, but all that it reads is known
  obtain ⟨v, hr, hunknown⟩ := hs.waits c o hdet hfree hcause'
  rcases hknown v hr with hconst | ⟨k, hk, node, hnode, hout⟩
  · exact hunknown (.inr ((hs.constantAt v).trans hconst))
  · have hlive := h.mentioned hnode v (Constraint.mem_vars_of_output? hout)
    exact hunknown (.inl (hs.claimed_iff.2 (.inr ⟨hlive, houtput hk ⟨node, hnode, hout⟩⟩)))

/-- If exactly the sources that the seeds name were due, the constraints that were scheduled are the
least set that is closed under the rule. -/
theorem Scheduled.isLeast (hs : s.Scheduled s' mark due steps) (h : s.WellFormed)
    (hfresh : ∀ v, ¬ s.Claimed mark v)
    (hdue : ∀ c, due c ↔ s.isVolatileSource c = true ∧ s.Named seeds c) :
    IsLeast {S | s.ScheduleClosed seeds S} {c | c ∈ steps.map PlanStep.constraint} := by
  refine ⟨hs.closed h hfresh fun c hc hn => (hdue c).2 ⟨hc, hn⟩, fun S hS c hc => ?_⟩
  obtain ⟨step, hmem, rfl⟩ := List.mem_map.1 hc
  exact hs.order.mem_of_closed hS (fun c hc => .inl ((hdue c).1 hc))
    (fun v hcl => absurd hcl (hfresh v)) step hmem

end Solver

namespace SolveM

variable {W T : Type} {m : Machine W T}

/-- Scheduling claims the outputs of the steps, and does nothing else. -/
theorem ensures_schedule_marks {mark : Mark} {fuel : Nat} {hot : OrderedSet ConstraintId} :
    Ensures (schedule mark fuel hot) m fun r m' => ∀ steps, r = .ok steps →
      m' = { m with
        solver := m.solver.modifyVariables (steps.map PlanStep.output) fun x =>
          { x with mark := mark } } := by
  -- on the fuel: what is changed is changed by the claim of each step
  induction fuel generalizing m hot with
  | zero => exact ensures_unfinished
  | succ fuel ih =>
    unfold schedule
    cases hot.pop? with
    | none =>
      refine (ensures_pure _).2 fun steps hsteps => ?_
      obtain rfl := Except.ok.inj hsteps
      rfl
    | some p =>
      simp only [ensures_bind, ensures_query]
      cases m.solver.readyStep? mark p.1 with
      | error e => simp
      | ok ready =>
        cases ready with
        | none => exact ih
        | some step =>
          simp only [ensures_bind, ensures_changeVariable]
          cases m.solver.variableAt? step.output with
          | none => simp
          | some x =>
            simp only [ensures_getVariable]
            cases (m.solver.modifyVariable step.output fun x =>
                { x with mark := mark }).lookupVariable step.output with
            | error e => simp
            | ok x =>
              simp only [ensures_ask]
              refine ih.mono fun r m' hr => ?_
              cases r with
              | error e => simp
              | ok steps =>
                refine (ensures_pure _).2 fun steps' hsteps' => ?_
                obtain rfl := Except.ok.inj hsteps'
                exact hr steps rfl

/-- Planning begins a pass, claims the outputs of the steps and counts the plan. -/
theorem ensures_plan_marks {fuel : Nat} {seeds : List Handle} :
    Ensures (plan fuel seeds) m fun r m' => ∀ p, r = .ok p →
      m' = { m with
        solver := { m.solver.modifyVariables (p.steps.map PlanStep.output) fun x =>
            { x with mark := .ofPass (m.solver.passes + 1) } with
          passes := m.solver.passes + 1
          metrics := { m.solver.metrics with plansBuilt := m.solver.metrics.plansBuilt + 1 } }
        journal := .planned p.steps.length m.solver.generation :: m.journal } := by
  unfold plan nextMark
  simp only [ensures_bind, ensures_query]
  cases m.solver.sources seeds .empty with
  | error e => simp
  | ok hot =>
    simp only [ensures_update, ensures_ask]
    refine ensures_schedule_marks.mono fun r m₁ hr => ?_
    cases r with
    | error e => simp
    | ok steps =>
      obtain rfl := hr steps rfl
      simp only [ensures_count, ensures_note, ensures_pure]
      intro p hp
      obtain rfl := Except.ok.inj hp
      simp only [Solver.mark]
      rw [Solver.modifyVariables_passes, Solver.modifyVariables_eq m.solver]
      rfl

end SolveM

namespace Run

open SolveM (exec Ensures)

variable {W T : Type} {own : Prop} {config : Config} {plans : List (Plan × Nat)}
  {m : Machine W T}

/-- A plan from seeds that exist is always built. Its steps run methods in force, no two of them write
the same variable, and each reads what is constant or written by earlier steps. The constraints that
it schedules are the least set that is closed under the rule of scheduling, whichever way the seeds
are listed. Building it begins a pass, claims the outputs of the steps and counts the plan, and
changes nothing else. -/
theorem schedule_isLeast (h : Run own config plans m) (hpasses : m.solver.passes + 1 < 2 ^ 64)
    {seeds : List Handle} (hlive : ∀ seed ∈ seeds, m.solver.Live seed) :
    ∃ S, IsLeast {S | m.solver.ScheduleClosed seeds S} S ∧
      ∀ seeds', (∀ x, x ∈ seeds' ↔ x ∈ seeds) →
        (Call.plan seeds').EndsIn m fun r m' => ∃ p, r = .ok (.plan p) ∧
          {c | c ∈ p.steps.map PlanStep.constraint} = S ∧
          (∀ step ∈ p.steps, ∃ node method, m.solver.constraintAt? step.constraint = some node ∧
            node.enabled = true ∧ node.enforcing = some step.method ∧
            node.definition.method? step.method = some method ∧ method.output = step.output) ∧
          (p.steps.map PlanStep.output).Nodup ∧
          (∀ before step after, p.steps = before ++ step :: after →
            ∀ v, m.solver.Reads step.constraint v step.output →
              m.solver.constantAt v = true ∨ v ∈ before.map PlanStep.output) ∧
          m' = { m with
            solver := { m.solver.modifyVariables (p.steps.map PlanStep.output) fun x =>
                { x with mark := .ofPass (m.solver.passes + 1) } with
              passes := m.solver.passes + 1
              metrics := { m.solver.metrics with plansBuilt := m.solver.metrics.plansBuilt + 1 } }
            journal := .planned p.steps.length m.solver.generation :: m.journal } := by
  have hsound := h.sound.1
  have hwf := hsound.toWellFormed
  have hfresh := hsound.unclaimed hpasses
  -- a plan from any listing of the seeds schedules a least set
  have hplan : ∀ seeds', (∀ x, x ∈ seeds' ↔ x ∈ seeds) → ∀ fuel,
      Ensures (SolveM.plan fuel seeds') m fun r _ => ∃ p due, r = .ok p ∧
        IsLeast {S | m.solver.ScheduleClosed seeds S} {c | c ∈ p.steps.map PlanStep.constraint} ∧
        m.solver.ReadyOrder due (m.solver.Claimed (.ofPass (m.solver.passes + 1))) p.steps := by
    intro seeds' hsame fuel
    obtain ⟨hot, hhot, hmem⟩ := Solver.exists_sources (s := m.solver) .empty
      fun x hx => hlive x ((hsame x).1 hx)
    refine (SolveM.ensures_plan_scheduled hwf hhot).mono ?_
    rintro _ m' ⟨_, p, rfl, _, hs⟩
    have hleast := hs.isLeast hwf hfresh fun c => (hmem c).trans (or_iff_right List.not_mem_nil)
    simp only [Solver.scheduleClosed_congr hsame] at hleast
    exact ⟨p, _, rfl, hleast, hs.order⟩
  -- which is the same for all of them, since there is only one
  obtain ⟨r, _, ⟨_, p₀, _, rfl, hleast₀, _⟩, _⟩ :=
    (SolveM.plan_returns seeds).and_ensures (hplan seeds fun _ => Iff.rfl)
  refine ⟨_, hleast₀, fun seeds' hsame => Call.endsIn_of_returns ?_ fun fuel => ?_⟩
  · exact (SolveM.plan_returns seeds').bind (fun _ _ _ => trivial) fun p _ _ =>
      .of_total (.pure _) fun _ _ _ => trivial
  change Ensures (SolveM.plan fuel seeds' >>= fun p => pure (Answer.plan p)) m _
  rw [SolveM.ensures_bind]
  refine ((hplan seeds' hsame fuel).and SolveM.ensures_plan_marks).mono ?_
  rintro _ m' ⟨⟨p, due, rfl, hleast, horder⟩, hmarks⟩
  refine (SolveM.ensures_pure _).2 ⟨p, rfl, hleast.unique hleast₀, ?_, horder.outputs.1, ?_,
    hmarks p rfl⟩
  · intro step hstep
    obtain ⟨node, method, _, hnode, hen, hi, hmethod, hout, _⟩ :=
      (horder.inForce hstep).determinedBy hwf
    exact ⟨node, method, hnode, hen, hi, hmethod, hout⟩
  · intro before step after hsteps v hr
    rw [hsteps] at horder
    exact (horder.inputs hr).imp_right (Or.resolve_left · (hfresh v))

/-- To a reading of the world and its successor are added the successor of the successor, and before
it the sum of it and the reading. -/
def readingAndSum : List (Call Nat Nat) :=
  sampled ++ [.newVariables [0, 0],
    .constrain (.ofMethod .strong none (.compute ⟨5, 0⟩ [⟨0, 0⟩, ⟨4, 0⟩]
      (.total fun values w => (values.sum, w))) ⟨by decide, by decide⟩),
    .constrain (.ofMethod .strong none (successor ⟨4, 0⟩ ⟨1, 0⟩) ⟨by decide, by decide⟩)]

/-- The sum is dropped when the reading is scheduled, and comes back with what it waits for. So the
least set for the reading, which is named twice, has all four constraints. -/
theorem schedule_isLeast_readingAndSum : ∃ (m m₁ : Machine Nat Nat) (p : Plan),
    Call.runAll 9 readingAndSum ⟨.empty {}, 6, []⟩ = some m ∧
    m.solver.passes + 1 < 2 ^ 64 ∧ (∀ seed ∈ [.var ⟨0, 0⟩], m.solver.Live seed) ∧
    exec ((Call.plan [.var ⟨0, 0⟩, .var ⟨0, 0⟩]).run 9) m = some (.ok (.plan p), m₁) ∧
    p.steps.map PlanStep.constraint = [⟨0, 0⟩, ⟨1, 0⟩, ⟨4, 0⟩, ⟨3, 0⟩] ∧
    IsLeast {S | m.solver.ScheduleClosed [.var ⟨0, 0⟩] S}
      {c | c ∈ [(⟨0, 0⟩ : ConstraintId), ⟨1, 0⟩, ⟨4, 0⟩, ⟨3, 0⟩]} := by
  have hany : (Call.runAll 9 readingAndSum ⟨.empty {}, 6, []⟩).any (fun m =>
      m.solver.passes + 1 < 2 ^ 64 ∧ (m.solver.variableAt? ⟨0, 0⟩).isSome ∧
      (exec ((Call.plan [.var ⟨0, 0⟩, .var ⟨0, 0⟩]).run 9) m).any fun q =>
        (Call.planOf? q.1).any fun p =>
          p.steps.map PlanStep.constraint = [⟨0, 0⟩, ⟨1, 0⟩, ⟨4, 0⟩, ⟨3, 0⟩]) = true := by
    decide +kernel
  simp only [Option.any_eq_true, decide_eq_true_eq] at hany
  obtain ⟨m, hm, hpasses, hvar, ⟨r, m₁⟩, hplan, p, hr, hsteps⟩ := hany
  obtain rfl := Call.eq_plan_of_planOf? hr
  have hstart : Run False {} [] (⟨.empty {}, 6, []⟩ : Machine Nat Nat) := .start 6
  obtain ⟨plans, h⟩ := runAll hstart (by decide) hm
  have hlive : ∀ seed ∈ [.var ⟨0, 0⟩], m.solver.Live seed := by
    intro seed hseed
    obtain rfl := List.mem_singleton.1 hseed
    exact hvar
  obtain ⟨S, hleast, hplans⟩ := schedule_isLeast h hpasses hlive
  obtain ⟨q, hq, hset, _⟩ := (hplans [.var ⟨0, 0⟩, .var ⟨0, 0⟩] (by simp)).2 9 _ _ hplan
  obtain rfl := Answer.plan.inj (Except.ok.inj hq)
  refine ⟨m, m₁, p, hm, hpasses, hlive, hplan, hsteps, ?_⟩
  rw [← hsteps, hset]
  exact hleast

end Run

end DeltaBlue
