import DeltaBlue.Proofs.Execution
import DeltaBlue.Proofs.Runs
import DeltaBlue.Proofs.Termination

/-!
# The validity of plans

A plan names a generation, and is refused at any other one. This is enough, since what can take a
method out of force is counted: enabling and disabling either do nothing to the solver or count a
change, wherever in a call they happen, and nothing else that a call does touches an enabled
constraint. So as long as no change is counted the steps of a plan stay in force
(`Solver.Upholds`); a plan that is accepted runs all of them, and a plan that is refused changes
nothing.
-/

namespace DeltaBlue

namespace Solver

variable {W T : Type}

/-- Unless the set of enabled constraints was changed, steps in force stay in force. -/
structure Upholds (s s' : Solver W T) : Prop where
  /-- Changes are counted forward. -/
  changes : s.changes ≤ s'.changes
  /-- Without a change every step that was in force is in force. -/
  inForce : s'.changes = s.changes → ∀ step, s.InForce step → s'.InForce step

variable {s s' : Solver W T} {step : PlanStep}

/-- A constraint with a method in force is enabled, and what is done aside does not touch it. -/
theorem Aside.upholds (ha : s.Aside s') (h : s.WellFormed) : s.Upholds s' where
  changes := Nat.le_of_eq ha.changes.symm
  inForce := by
    rintro _ step ⟨node, hnode, hi, hout⟩
    exact ⟨node, (ha.constraintAt (h.enforcing hnode hi).1).2 hnode, hi, hout⟩

/-- A step in force names an enabled constraint, the method that is in force and its output, which
the constraint determines. -/
theorem InForce.determinedBy (hs : s.InForce step) (h : s.WellFormed) :
    ∃ node method x, s.constraintAt? step.constraint = some node ∧ node.enabled = true ∧
      node.enforcing = some step.method ∧ node.definition.method? step.method = some method ∧
      method.output = step.output ∧ s.variableAt? step.output = some x ∧
      x.determinedBy = some step.constraint := by
  obtain ⟨node, hnode, hi, hout⟩ := hs
  obtain ⟨j, method, hj, hmethod, ho⟩ := Constraint.output?_eq_some_iff.1 hout
  obtain rfl := Option.some.inj (hi.symm.trans hj)
  obtain ⟨x, hx⟩ := Option.isSome_iff_exists.1
    (h.mentioned hnode _ (Constraint.mem_vars_of_output? hout))
  exact ⟨node, method, x, hnode, (h.enforcing hnode hi).1, hi, hmethod, ho, hx,
    (h.determined hx step.constraint).2 ⟨node, hnode, hout⟩⟩

end Solver

namespace SolveM

open Solver (Sound Upholds)

variable {W T : Type} {cells : Prop} {P : Solver W T → ConstraintId → Prop} {fuel : Nat}
  {m m' : Machine W T}

/-- Enabling does nothing to the solver, or it is counted. -/
theorem ensures_enable_counted (h : m.solver.Sound cells) (c : ConstraintId) :
    Ensures (enable fuel c) m fun _ m' =>
      m'.solver = m.solver ∨ m.solver.changes < m'.solver.changes := by
  refine ensures_enable_cases h (fun _ _ => .inl rfl) fun _ m₁ _ _ _ hc _ _ => ?_
  -- the change is counted when the constraint enters, and settling it does not count any
  refine (settle_obeys propagates_frame fuel (Solver.propagates_switchOff c) m₁).mono ?_
  intro r m' hprop
  right
  rw [hprop.changes, hc]
  exact Nat.lt_succ_self _

/-- Disabling does nothing to the solver, or it is counted. -/
theorem ensures_disable_counted (c : ConstraintId) :
    Ensures (disable fuel c) m fun _ m' =>
      m'.solver = m.solver ∨ m.solver.changes < m'.solver.changes := by
  refine ensures_disable_cases (fun _ _ _ => .inl rfl) fun node m₁ _ _ hc _ _ => ?_
  refine (leave_obeys propagates_frame fuel c node m₁).mono fun r m' hprop => .inr ?_
  rw [hprop.changes, hc]
  exact Nat.lt_succ_self _

/-- Moves of which none was counted have only done things aside. -/
theorem Moves.aside_of_changes (hmoves : Moves cells P fuel m m') (h : m.solver.Sound cells)
    (hc : m'.solver.changes = m.solver.changes) : m.solver.Aside m'.solver := by
  induction hmoves with
  | refl => exact Solver.Aside.transitive.refl _
  | @tail m₁ m₂ hmoves hmove ih =>
    obtain ⟨h₁, hquiet₁⟩ := Moves.keeps hmoves h
    have hle₁ := hquiet₁.changes
    have hle₂ := (hmove.keeps h₁).2.changes
    have hstep : m₁.solver.Aside m₂.solver := by
      -- a move that was not counted has done nothing to the solver
      have hsame : (m₂.solver = m₁.solver ∨ m₁.solver.changes < m₂.solver.changes) →
          m₁.solver.Aside m₂.solver := by
        rintro (he | hlt)
        · exact he ▸ Solver.Aside.transitive.refl _
        · omega
      cases hmove with
      | enable c _ hrun => exact hsame (ensures_enable_counted h₁ c _ _ hrun)
      | disable c hrun => exact hsame (ensures_disable_counted c _ _ hrun)
      | aside haside _ _ => exact haside
    exact Solver.Aside.transitive.trans (ih (by omega)) hstep

/-- Moves uphold the steps in force. -/
theorem Moves.upholds (hmoves : Moves cells P fuel m m') (h : m.solver.Sound cells) :
    m.solver.Upholds m'.solver where
  changes := (Moves.keeps hmoves h).2.changes
  inForce hc := ((hmoves.aside_of_changes h hc).upholds h.toWellFormed).inForce hc

/-- The steps of a plan that is built are in force. -/
theorem ensures_plan_inForce {seeds : List Handle} (h : m.solver.WellFormed) :
    Ensures (plan fuel seeds) m fun r m' => ∀ p, r = .ok p → ∀ step ∈ p.steps,
      m'.solver.InForce step := by
  refine (ensures_plan_built h).mono fun r m' hbuilt p hp step hstep => ?_
  obtain ⟨hot, hs⟩ := hbuilt p hp
  exact (Solver.inForce_congr hs.constraintAt).2 (hs.order.inForce hstep)

/-- A plan of another generation is refused, and nothing changes. -/
theorem ensures_executePlan_refused {p : Plan} (hgen : p.generation ≠ m.solver.generation) :
    Ensures (executePlan p) m fun r m' =>
      r = .error (.planInvalidated p.generation m.solver.generation) ∧ m' = m := by
  unfold executePlan
  rw [ensures_bind, ensures_ask]
  simp only
  rw [if_pos hgen, ensures_bind, ensures_throw]
  exact ⟨rfl, rfl⟩

/-- What comes of a plan of the current generation is what comes of its steps, and some counting. -/
theorem ensures_executePlan_current {p : Plan} {Q : Machine W T → Prop}
    (hgen : p.generation = m.solver.generation)
    (hcount : ∀ m' f, f.faults = m'.solver.metrics.faults → Q m' →
      Q { m' with solver := { m'.solver with metrics := f } })
    (hrun : Ensures (p.steps.forM fun step => execute step.constraint step.method) m fun r m' =>
      r = .ok ⟨⟩ ∧ Q m') : Ensures (executePlan p) m fun r m' => r = .ok () ∧ Q m' := by
  unfold executePlan
  rw [ensures_bind, ensures_ask]
  simp only
  rw [if_neg (not_not_intro hgen), ensures_bind]
  refine hrun.mono ?_
  rintro _ m' ⟨rfl, hQ⟩
  exact (ensures_count _).2 ⟨rfl, hcount m' _ rfl hQ⟩

/-- A plan of the current generation whose steps are in force runs them all, in their order. -/
theorem ensures_executePlan_runs {p : Plan} (h : m.solver.WellFormed)
    (hgen : p.generation = m.solver.generation) (hforce : ∀ step ∈ p.steps, m.solver.InForce step) :
    Ensures (executePlan p) m fun r m' => r = .ok () ∧
      m'.journal.filterMap Notice.run? =
        (p.steps.map fun step => (step.constraint, step.output)).reverse ++
          m.journal.filterMap Notice.run? :=
  ensures_executePlan_current hgen (fun _ _ _ => id)
    ((ensures_forM_execute h hforce).mono fun _ _ ⟨hok, _, hran⟩ => ⟨hok, hran⟩)

end SolveM

namespace Call

open SolveM (Ensures)

variable {W T : Type} {cells : Prop} {m : Machine W T} {fuel : Nat}

/-- The plan that a call has given back. -/
def planOf? : Except SolveError (Answer W T) → Option Plan
  | .ok (.plan p) => some p
  | _ => none

/-- If the result gives a plan, the call has succeeded with it. -/
theorem eq_plan_of_planOf? {r : Except SolveError (Answer W T)} {p : Plan}
    (h : planOf? r = some p) : r = .ok (.plan p) := by
  cases r with
  | error e => cases h
  | ok a =>
    cases a with
    | plan q => rw [Option.some.inj h]
    | _ => cases h

/-- Executing a plan always returns, with whatever it comes to. -/
theorem exists_exec_executePlan {p : Plan} {Q : Machine W T → Prop}
    (h : Ensures (SolveM.executePlan p) m fun r m' => r = .ok () ∧ Q m') :
    ∃ m', (∀ fuel, SolveM.exec ((Call.executePlan p).run fuel) m = some (.ok .done, m')) ∧ Q m' := by
  obtain ⟨⟨r, m'⟩, hexec⟩ := SolveM.total_executePlan p m
  obtain ⟨rfl, hQ⟩ := h r m' hexec
  refine ⟨m', fun fuel => ?_, hQ⟩
  change SolveM.exec (SolveM.executePlan p >>= fun _ => pure Answer.done) _ = _
  rw [SolveM.exec_bind, hexec]
  rfl

/-- A careful call upholds the steps in force, whether it succeeds or fails. -/
theorem ensures_upholds {call : Call W T} (h : m.solver.Sound cells)
    (hcareful : call.Careful cells m.solver) :
    Ensures (call.run fuel) m fun _ m' => m.solver.Upholds m'.solver := by
  -- resetting the counters is no move, but it touches no constraint
  by_cases hreset : call = resetMetrics
  · subst hreset
    unfold run SolveM.resetMetrics
    rw [SolveM.ensures_bind, SolveM.ensures_count]
    exact (SolveM.ensures_pure _).2 ⟨Nat.le_refl _, fun _ _ h => h⟩
  · exact (ensures_moves h hcareful hreset (fun _ _ => trivial) (enablesWhere_true call)).mono
      fun _ _ hmoves => hmoves.upholds h

end Call

namespace Run

open SolveM (exec)

variable {W T : Type} {own : Prop} {config : Config} {plans : List (Plan × Nat)}
  {m : Machine W T} {p : Plan} {n : Nat}

/-- What holds of a plan that was just built, and holds of it still after a call that counts no change,
holds of every plan that was built in the run until a change is counted. -/
theorem until_counted {P : Solver W T → Plan → Prop}
    (hbuilt : ∀ {m m' : Machine W T} {fuel seeds p}, m.solver.Sound own →
      exec (SolveM.plan fuel seeds) m = some (.ok p, m') → P m'.solver p)
    (hkept : ∀ {m m' : Machine W T} {fuel call r p}, m.solver.Sound own →
      Call.Careful own m.solver call → exec (call.run fuel) m = some (r, m') →
      m'.solver.changes = m.solver.changes → P m.solver p → P m'.solver p)
    (h : Run own config plans m) (hp : (p, n) ∈ plans) (hn : m.solver.changes = n) :
    P m.solver p := by
  induction h with
  | start w => cases hp
  | outside w _ ih => exact ih hp hn
  | @call plans m m' r fuel call h hcall hrun ih =>
    obtain ⟨hsound, htracked⟩ := h.sound
    rcases List.mem_append.1 hp with hnew | hold
    · obtain ⟨seeds, rfl, rfl, rfl⟩ := Call.mem_issued.1 hnew
      obtain ⟨q, m₁, hplan, hret⟩ := SolveM.exec_bind_eq_ok.1 hrun
      obtain ⟨hq, rfl⟩ := Prod.mk.inj (Option.some.inj hret)
      obtain rfl := Answer.plan.inj (Except.ok.inj hq)
      exact hbuilt hsound hplan
    · -- changes are counted forward, so none was counted by this call or before it
      have hcareful := careful htracked hcall
      have hle := (htracked p n hold).changes
      have hle' := (Call.ensures_run hsound hcareful r m' hrun).2.changes
      exact hkept hsound hcareful hrun (by omega) (ih hold (by omega))

/-- The steps of a plan that was built in the run are in force until a change is counted. -/
theorem inForce (h : Run own config plans m) (hp : (p, n) ∈ plans) (hn : m.solver.changes = n) :
    ∀ step ∈ p.steps, m.solver.InForce step := by
  refine h.until_counted (P := fun s p => ∀ step ∈ p.steps, s.InForce step) ?_ ?_ hp hn
  · exact fun hsound hrun => SolveM.ensures_plan_inForce hsound.toWellFormed _ _ hrun _ rfl
  · exact fun hsound hcareful hrun hc hsteps step hstep =>
      (Call.ensures_upholds hsound hcareful _ _ hrun).inForce hc step (hsteps step hstep)

/-- A plan that was built in the run fewer than `2 ^ 64` changes ago. If the set of enabled
constraints was changed since, the plan is refused and nothing at all changes. Otherwise each step
names an enabled constraint, the method in force of it and the variable that it determines; and the
plan is accepted and runs its steps in their order. -/
theorem refused_or_valid (h : Run own config plans m) (hp : (p, n) ∈ plans)
    (hwrap : m.solver.changes < n + 2 ^ 64) (fuel : Nat) :
    (m.solver.changes ≠ n ∧ exec ((Call.executePlan p).run fuel) m =
      some (.error (.planInvalidated p.generation m.solver.generation), m)) ∨
    (m.solver.changes = n ∧
      (∀ step ∈ p.steps, ∃ node method x,
        m.solver.constraintAt? step.constraint = some node ∧ node.enabled = true ∧
        node.enforcing = some step.method ∧ node.definition.method? step.method = some method ∧
        method.output = step.output ∧ m.solver.variableAt? step.output = some x ∧
        x.determinedBy = some step.constraint) ∧
      ∃ m', exec ((Call.executePlan p).run fuel) m = some (.ok .done, m') ∧
        m'.journal.filterMap Notice.run? =
          (p.steps.map fun step => (step.constraint, step.output)).reverse ++
            m.journal.filterMap Notice.run?) := by
  obtain ⟨hsound, htracked⟩ := h.sound
  have ht := htracked p n hp
  obtain ⟨⟨r, m'⟩, hexec⟩ := ((SolveM.total_executePlan p).bind fun _ => .pure Answer.done) m
  have hrun : exec ((Call.executePlan p).run fuel) m = some (r, m') := hexec
  by_cases hn : m.solver.changes = n
  · -- nothing was changed since, and the generation is the one that the plan names
    have hforce := h.inForce hp hn
    have hgen : p.generation = m.solver.generation := by rw [ht.generation, ← hn]; rfl
    have hruns : SolveM.Ensures ((Call.executePlan p).run fuel) m fun r m' => r = .ok .done ∧
        m'.journal.filterMap Notice.run? =
          (p.steps.map fun step => (step.constraint, step.output)).reverse ++
            m.journal.filterMap Notice.run? := by
      unfold Call.run
      rw [SolveM.ensures_bind]
      refine (SolveM.ensures_executePlan_runs hsound.toWellFormed hgen hforce).mono ?_
      rintro _ m₁ ⟨rfl, hran⟩
      exact (SolveM.ensures_pure _).2 ⟨rfl, hran⟩
    obtain ⟨rfl, hran⟩ := hruns r m' hrun
    exact .inr ⟨hn, fun step hstep => (hforce step hstep).determinedBy hsound.toWellFormed,
      m', hrun, hran⟩
  · -- a generation comes back only after `2 ^ 64` changes, and there were fewer
    have hgen : p.generation ≠ m.solver.generation := by
      intro he
      refine hn (Generation.ofChanges_inj ht.changes hwrap ?_).symm
      rw [← ht.generation, he]
      rfl
    have hrefused : SolveM.Ensures ((Call.executePlan p).run fuel) m fun r m' =>
        r = .error (.planInvalidated p.generation m.solver.generation) ∧ m' = m := by
      unfold Call.run
      rw [SolveM.ensures_bind]
      refine (SolveM.ensures_executePlan_refused hgen).mono ?_
      rintro _ m₁ ⟨rfl, rfl⟩
      exact ⟨rfl, rfl⟩
    obtain ⟨rfl, rfl⟩ := hrefused r m' hrun
    exact .inl ⟨hn, hrun⟩

/-- The method that shows a reading of the world. -/
def reading : Method Nat Nat := .compute ⟨0, 0⟩ [] fun _ w => (.ok w, w)

/-- The method that computes the successor of a variable. -/
def successor (output input : VarId) : Method Nat Nat :=
  .compute output [input] (.total fun values w => (values.headD 0 + 1, w))

/-- A reading of the world, which is taken anew on request, the successor of the reading, and beside
them the successor of five. -/
def sampled : List (Call Nat Nat) :=
  [.newVariables [0, 0, 5, 0],
    .constrain { Definition.ofMethod .strong none reading ⟨by decide, by decide⟩ with
      volatile := true },
    .constrain (.ofMethod .strong none (successor ⟨1, 0⟩ ⟨0, 0⟩) ⟨by decide, by decide⟩),
    .constrain (.ofMethod .strong none (successor ⟨3, 0⟩ ⟨2, 0⟩) ⟨by decide, by decide⟩)]

/-- A plan that takes the reading anew and then computes its successor is accepted, and runs both
steps. -/
theorem refused_or_valid_sampled : ∃ (m m₁ m₂ : Machine Nat Nat) (p : Plan),
    Call.runAll 9 sampled ⟨.empty {}, 6, []⟩ = some m ∧
    exec ((Call.plan [.var ⟨0, 0⟩]).run 9) m = some (.ok (.plan p), m₁) ∧
    p.steps = [⟨⟨0, 0⟩, 0, ⟨0, 0⟩⟩, ⟨⟨1, 0⟩, 0, ⟨1, 0⟩⟩] ∧
    exec ((Call.executePlan p).run 9) m₁ = some (.ok .done, m₂) ∧
    m₂.journal.filterMap Notice.run? = [(⟨1, 0⟩, ⟨1, 0⟩), (⟨0, 0⟩, ⟨0, 0⟩)] ++
      m₁.journal.filterMap Notice.run? := by
  have hany : (Call.runAll 9 sampled ⟨.empty {}, 6, []⟩).any (fun m =>
      (exec ((Call.plan [.var ⟨0, 0⟩]).run 9) m).any fun q =>
        (Call.planOf? q.1).any fun p =>
          p.steps = [⟨⟨0, 0⟩, 0, ⟨0, 0⟩⟩, ⟨⟨1, 0⟩, 0, ⟨1, 0⟩⟩]) = true := by
    decide +kernel
  simp only [Option.any_eq_true, decide_eq_true_eq] at hany
  obtain ⟨m, hm, ⟨r, m₁⟩, hplan, p, hr, hsteps⟩ := hany
  obtain rfl := Call.eq_plan_of_planOf? hr
  have hstart : Run False {} [] (⟨.empty {}, 6, []⟩ : Machine Nat Nat) := .start 6
  obtain ⟨plans, h⟩ := runAll hstart (by decide) hm
  have h₁ := h.call 9 (.plan [.var ⟨0, 0⟩]) trivial hplan
  -- nothing was changed since the plan was built
  have hmem : (p, m₁.solver.changes) ∈
      (Call.plan [.var ⟨0, 0⟩] : Call Nat Nat).issued (.ok (.plan p)) m₁.solver.changes ++ plans :=
    List.mem_append_left _ (Call.mem_issued.2 ⟨_, rfl, rfl, rfl⟩)
  obtain ⟨hne, _⟩ | ⟨_, _, m₂, hexec, hran⟩ := refused_or_valid h₁ hmem (by omega) 9
  · exact absurd rfl hne
  · refine ⟨m, m₁, m₂, p, hm, hplan, hsteps, hexec, ?_⟩
    rw [hran, hsteps]
    rfl

/-! ### A plan of another solver

A plan does not say which solver has built it. The calls of `heldVolatile` and of `heldAtFive` lead to
solvers of the same generation, so each accepts the plans of the other. -/

/-- Where it is not asked who has built a plan, calls that may be made in every run are still a run when
any plan whatever is executed after them. -/
theorem runAll_executePlan {W T : Type} {config : Config} {w : W} {fuel : Nat}
    {calls : List (Call W T)} {m m' : Machine W T} {p : Plan} {r : Except SolveError (Answer W T)}
    (hplain : ∀ call ∈ calls, call.isPlain = true)
    (hrun : Call.runAll fuel calls ⟨.empty config, w, []⟩ = some m)
    (hexec : exec ((Call.executePlan p).run fuel) m = some (r, m')) :
    ∃ plans, Run False config plans m' := by
  have hstart : Run False config [] (⟨.empty config, w, []⟩ : Machine W T) := .start w
  obtain ⟨plans, h⟩ := runAll hstart hplain hrun
  -- that the plan is one of `plans` is asked only of runs with plans of their own
  exact ⟨_, h.call fuel (.executePlan p) False.elim hexec⟩

/-- A variable that is held at seven by a volatile constraint. -/
def heldVolatile : List (Call Unit Nat) :=
  [.newVariables [0, 0],
    .constrain { Definition.edit .strong none ⟨0, 0⟩ 7 with volatile := true }]

/-- A variable that is held at five, and a constraint that would hold it at seven but is not enabled. -/
def heldAtFive : List (Call Unit Nat) :=
  [.newVariables [0, 0], .insert (.edit .weak none ⟨0, 0⟩ 7),
    .constrain (.edit .strong none ⟨0, 0⟩ 5)]

end Run

end DeltaBlue
