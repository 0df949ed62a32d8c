import DeltaBlue.Proofs.Coverage
import DeltaBlue.Proofs.Recompute

/-!
# Executing a plan again

A plan of the current generation was built in a graph that has not changed since: enabling and
disabling are counted, and what calls do aside leaves the enabled constraints and the flags of their
variables alone. So its steps can still be run in their order, starting from the constants
(`Solver.Replayable`), and none writes a constant. Run in this order they all hold in the end, since
no later step writes what an earlier one has read or written; and running a step that holds stores
what is stored already, so executing the plan again changes nothing.
-/

namespace DeltaBlue

/-- To store an outcome twice is to store it once. -/
theorem Outcome.store_store {T : Type} (outcome : Outcome T) (cell : Cell T) :
    outcome.store (outcome.store cell) = outcome.store cell := by
  cases outcome <;> rfl

namespace Solver

variable {W T : Type} {s s' : Solver W T} {due : ConstraintId → Prop} {claimed : VarId → Prop}
  {steps : List PlanStep}

/-- The steps can be run in their order, starting from the constants. -/
def Replayable (s : Solver W T) (steps : List PlanStep) : Prop :=
  s.ReadyOrder (fun _ => True) (fun _ => False) steps

/-- What is done aside does not disturb the order, since it touches neither the enabled constraints
nor the flags of their variables. -/
theorem ReadyOrder.aside (horder : s.ReadyOrder due claimed steps) (ha : s.Aside s')
    (h : s.WellFormed) (h' : s'.WellFormed) : s'.ReadyOrder (fun _ => True) claimed steps := by
  induction steps generalizing due claimed with
  | nil => trivial
  | cons step rest ih =>
    obtain ⟨_, hforce, hnot, hinputs, hrest⟩ := horder
    refine ⟨trivial, (ha.upholds h).inForce ha.changes step hforce, hnot, ?_, ?_⟩
    · rintro v ⟨node, hnode, hout, hv, hne⟩
      -- what has a method in force is enabled, and nothing enabled was touched
      obtain ⟨i, _, hi, _, _⟩ := Constraint.output?_eq_some_iff.1 hout
      have hen := (h'.enforcing hnode hi).1
      have hnode' := (ha.constraintAt hen).1 hnode
      rw [(ha.flags hnode' hen v hv).2]
      exact hinputs v ⟨node, hnode', hout, hv, hne⟩
    · exact (ih hrest).congr (fun _ => rfl) (fun _ => rfl) (fun _ => .inl) fun _ => Iff.rfl

end Solver

namespace SolveM

open Solver (Sound Undisturbed)

variable {W T : Type} {cells : Prop} {P : Solver W T → ConstraintId → Prop} {fuel : Nat}
  {m m' : Machine W T} {steps : List PlanStep} {during : W → Prop}

/-- The steps of a plan that is built can be run in their order. -/
theorem ensures_plan_replayable {seeds : List Handle} (h : m.solver.Sound cells) :
    Ensures (plan fuel seeds) m fun r m' => ∀ p, r = .ok p → m'.solver.passes < 2 ^ 64 →
      m'.solver.Replayable p.steps := by
  refine ((ensures_plan_built h.toWellFormed).and ensures_plan_marks).mono ?_
  rintro r m' ⟨hbuilt, hmarks⟩ p rfl hpasses
  obtain ⟨hot, hs⟩ := hbuilt p rfl
  have hpass : m.solver.passes + 1 < 2 ^ 64 := by
    rw [hmarks p rfl] at hpasses
    exact hpasses
  -- nothing carried the mark of the pass before
  exact hs.order.congr hs.constraintAt hs.constantAt (fun _ _ => trivial) fun v =>
    iff_of_false id (h.unclaimed hpass v)

/-- While steps are run, the world stays among the worlds that make no difference. -/
theorem ensures_forM_execute_world (h : m.solver.WellFormed)
    (hforce : ∀ step ∈ steps, m.solver.InForce step) (hfixed : m.solver.Undisturbed during)
    (hworld : during m.world) :
    Ensures (steps.forM fun step => execute step.constraint step.method) m fun _ m' =>
      during m'.world := by
  induction steps generalizing m with
  | nil => exact (ensures_pure _).2 hworld
  | cons step steps ih =>
    obtain ⟨node, method, hnode, henforcing, hmethod, _⟩ :=
      (hforce step List.mem_cons_self).enforcingMethod
    rw [List.forM, ensures_bind]
    refine ((ensures_execute_cellAt h.toGrounded hnode hmethod).and
      (execute_rewrites step.constraint step.method m)).mono ?_
    rintro _ m₁ ⟨⟨rfl, hworld₁, _⟩, hr⟩
    exact ih (hr.wellFormed h) (fun later hlater => (Solver.inForce_congr hr.constraintAt).2
      (hforce later (List.mem_cons_of_mem step hlater))) (hfixed.congr hr.constraintAt)
      (hworld₁ ▸ hfixed.runOn_world hnode henforcing _ hworld)

/-- Running steps that hold changes no cell. -/
theorem ensures_forM_execute_idle {before : VarId → Cell T} (h : m.solver.WellFormed)
    (hforce : ∀ step ∈ steps, m.solver.InForce step)
    (hholds : ∀ step ∈ steps, ∀ w, during w → m.solver.Holds w before step.constraint)
    (hfixed : m.solver.Undisturbed during) (hworld : during m.world) :
    Ensures (steps.forM fun step => execute step.constraint step.method) m fun _ m' =>
      ∀ v, m'.solver.cellAt v = m.solver.cellAt v := by
  -- along the steps: the first one changes no cell, so the later ones still hold
  induction steps generalizing m with
  | nil => exact (ensures_pure _).2 fun _ => rfl
  | cons step steps ih =>
    obtain ⟨node, method, hnode, henforcing, hmethod, ho⟩ :=
      (hforce step List.mem_cons_self).enforcingMethod
    rw [List.forM, ensures_bind]
    refine ((ensures_execute_cellAt h.toGrounded hnode hmethod).and
      (execute_rewrites step.constraint step.method m)).mono ?_
    rintro _ m₁ ⟨⟨rfl, hworld₁, hcell₁⟩, hr⟩
    -- the step stores what it has stored before
    have hsame : ∀ v, m₁.solver.cellAt v = m.solver.cellAt v := by
      intro v
      rw [hcell₁]
      split
      · next hv =>
        rw [hv, hholds step List.mem_cons_self _ hworld hnode henforcing, Outcome.store_store]
      · rfl
    have hcells : m₁.solver.cellAt = m.solver.cellAt := funext hsame
    refine (ih (hr.wellFormed h) (fun later hlater => (Solver.inForce_congr hr.constraintAt).2
      (hforce later (List.mem_cons_of_mem step hlater))) (fun later hlater w hw n method' hn hm => ?_)
      (hfixed.congr hr.constraintAt)
      (hworld₁ ▸ hfixed.runOn_world hnode henforcing _ hworld)).mono fun _ _ hr' v =>
        (hr' v).trans (hsame v)
    rw [hcells]
    exact hholds later (List.mem_cons_of_mem step hlater) w hw ((hr.constraintAt _).symm.trans hn) hm

/-- A plan whose steps can be run in their order and write no constant makes all of them hold. -/
theorem ensures_executePlan_settles {p : Plan} (h : m.solver.WellFormed)
    (hgen : p.generation = m.solver.generation) (horder : m.solver.Replayable p.steps)
    (hchangeable : ∀ step ∈ p.steps, m.solver.constantAt step.output = false)
    (hfixed : m.solver.Undisturbed during) (hworld : during m.world) :
    Ensures (executePlan p) m fun r m' => r = .ok () ∧ (m.solver.Rewrites m'.solver ∧
      (∀ v, v ∉ p.steps.map PlanStep.output → m'.solver.cellAt v = m.solver.cellAt v) ∧
      (∀ step ∈ p.steps, ∀ w, during w → m'.solver.Holds w m.solver.cellAt step.constraint) ∧
      during m'.world) := by
  have hforce : ∀ step ∈ p.steps, m.solver.InForce step := fun step => horder.inForce
  refine ensures_executePlan_current hgen (fun m' f hf => And.imp_left fun hr =>
    Solver.Rewrites.transitive.trans hr
      (Solver.Alike.rewrites ⟨fun _ => rfl, fun _ => rfl, rfl, rfl⟩ hf)) ?_
  refine ((ensures_forM_execute h hforce).and ((ensures_forM_execute_holds h horder
    (fun v hv => ?_) hfixed hworld).and (ensures_forM_execute_world h hforce hfixed hworld))).mono ?_
  · obtain ⟨step, hstep, rfl⟩ := List.mem_map.1 hv
    exact hchangeable step hstep
  · rintro r m' ⟨⟨hok, hr, _⟩, ⟨hsame, hholds⟩, hworld'⟩
    exact ⟨hok, hr, hsame, hholds, hworld'⟩

/-- A plan whose steps hold changes no cell. -/
theorem ensures_executePlan_idle {p : Plan} {before : VarId → Cell T} (h : m.solver.WellFormed)
    (hgen : p.generation = m.solver.generation) (hforce : ∀ step ∈ p.steps, m.solver.InForce step)
    (hholds : ∀ step ∈ p.steps, ∀ w, during w → m.solver.Holds w before step.constraint)
    (hfixed : m.solver.Undisturbed during) (hworld : during m.world) :
    Ensures (executePlan p) m fun r m' => r = .ok () ∧
      ∀ v, m'.solver.cellAt v = m.solver.cellAt v := by
  refine ensures_executePlan_current hgen (fun m' f _ => id) ?_
  exact ((ensures_forM_execute h hforce).and (ensures_forM_execute_idle h hforce hholds hfixed
    hworld)).mono fun r m' ⟨⟨hok, _⟩, hsame⟩ => ⟨hok, hsame⟩

end SolveM

namespace Call

open SolveM (Ensures)

variable {W T : Type} {cells : Prop} {m : Machine W T} {fuel : Nat}

/-- A careful call in which no change is counted does not disturb the order of steps. -/
theorem ensures_replayable {call : Call W T} (h : m.solver.Sound cells)
    (hcareful : call.Careful cells m.solver) :
    Ensures (call.run fuel) m fun _ m' => m'.solver.changes = m.solver.changes →
      ∀ steps, m.solver.Replayable steps → m'.solver.Replayable steps := by
  by_cases hreset : call = resetMetrics
  · subst hreset
    unfold run SolveM.resetMetrics
    rw [SolveM.ensures_bind, SolveM.ensures_count]
    exact (SolveM.ensures_pure _).2 fun _ _ h =>
      h.congr (fun _ => rfl) (fun _ => rfl) (fun _ => id) fun _ => Iff.rfl
  · refine (ensures_moves h hcareful hreset (fun _ _ => trivial) (enablesWhere_true call)).mono ?_
    intro _ m' hmoves hc steps hsteps
    exact hsteps.aside (hmoves.aside_of_changes h hc) h.toWellFormed (hmoves.keeps h).1.toWellFormed

end Call

namespace Run

open SolveM (exec Ensures)

variable {W T : Type} {own : Prop} {config : Config} {plans : List (Plan × Nat)}
  {m : Machine W T} {p : Plan} {n : Nat}

/-- The steps of a plan that was built in the run can be run in their order until a change is
counted. -/
theorem replayable (h : Run own config plans m) (hp : (p, n) ∈ plans)
    (hn : m.solver.changes = n) (hlt : m.solver.passes < 2 ^ 64) : m.solver.Replayable p.steps := by
  refine h.until_counted (P := fun s p => s.passes < 2 ^ 64 → s.Replayable p.steps) ?_ ?_ hp hn hlt
  · exact fun hsound hrun => SolveM.ensures_plan_replayable hsound _ _ hrun _ rfl
  · intro m m' fuel call r p hsound hcareful hrun hc hsteps hpasses
    obtain ⟨_, hquiet⟩ := Call.ensures_run hsound hcareful r m' hrun
    exact Call.ensures_replayable hsound hcareful r m' hrun hc _
      (hsteps (Nat.lt_of_le_of_lt hquiet.passes hpasses))

/-- A plan of the current generation that was built in the run writes no constant. Executed in a world
that the computations do not see changing, it changes no cell but those of the outputs of its steps,
and in the end all of its steps hold for the present cells of their inputs. Executing it again at once
changes no cell. -/
theorem replay_settled (h : Run own config plans m) (hp : (p, n) ∈ plans)
    (hgen : p.generation = m.solver.generation) (hwrap : m.solver.changes < n + 2 ^ 64)
    (hlt : m.solver.passes < 2 ^ 64) {during : W → Prop} (hfixed : m.solver.Undisturbed during)
    (hworld : during m.world) :
    (∀ step ∈ p.steps, m.solver.InForce step ∧ m.solver.constantAt step.output = false) ∧
    ∃ m₁, (∀ fuel, exec ((Call.executePlan p).run fuel) m = some (.ok .done, m₁)) ∧
      (∀ c, m₁.solver.constraintAt? c = m.solver.constraintAt? c) ∧
      (∀ v, v ∉ p.steps.map PlanStep.output → m₁.solver.cellAt v = m.solver.cellAt v) ∧
      (∀ step ∈ p.steps, ∀ w, during w → m₁.solver.Holds w m.solver.cellAt step.constraint) ∧
      during m₁.world ∧
      ∀ w, during w → ∃ m₂,
        (∀ fuel, exec ((Call.executePlan p).run fuel) { m₁ with world := w } =
          some (.ok .done, m₂)) ∧
        ∀ v, m₂.solver.cellAt v = m₁.solver.cellAt v := by
  obtain ⟨hsound, htracked⟩ := h.sound
  have hwf := hsound.toWellFormed
  have ht := htracked p n hp
  -- fewer than `2 ^ 64` changes ago, the same generation means that nothing has changed
  have hn : m.solver.changes = n :=
    (Generation.ofChanges_inj ht.changes hwrap (ht.generation.symm.trans hgen)).symm
  have horder := h.replayable hp hn hlt
  have hchangeable : ∀ step ∈ p.steps, m.solver.constantAt step.output = false := by
    intro step hstep
    obtain ⟨_, _, _, _, hv⟩ := ht.good hlt hn step hstep
    exact hv
  refine ⟨fun step hstep => ⟨horder.inForce hstep, hchangeable step hstep⟩, ?_⟩
  obtain ⟨m₁, hexec, hr, hsame, hholds, hworld₁⟩ := Call.exists_exec_executePlan
    (SolveM.ensures_executePlan_settles hwf hgen horder hchangeable hfixed hworld)
  refine ⟨m₁, hexec, hr.constraintAt, hsame, hholds, hworld₁, fun w hw => ?_⟩
  -- executing a plan counts no change, so the plan is current still
  have hgen₁ : p.generation = m₁.solver.generation := by
    rw [hgen, Solver.generation, Solver.generation, hr.changes]
  obtain ⟨m₂, hexec₂, hsame₂⟩ := Call.exists_exec_executePlan (SolveM.ensures_executePlan_idle
    (m := { m₁ with world := w }) (hr.wellFormed hwf) hgen₁
    (fun step hstep => (Solver.inForce_congr hr.constraintAt).2 (horder.inForce hstep)) hholds
    (hfixed.congr hr.constraintAt) hw)
  exact ⟨m₂, hexec₂, hsame₂⟩

/-- A plan that was built when the reading was six is executed when it is seven: the successor becomes
eight, and executing the plan again changes nothing. -/
theorem replay_settled_sampled : ∃ (m m₁ m₂ m₃ : Machine Nat Nat) (p : Plan),
    Call.runAll 9 sampled ⟨.empty {}, 6, []⟩ = some m ∧
    exec ((Call.plan [.var ⟨0, 0⟩]).run 9) m = some (.ok (.plan p), m₁) ∧
    p.steps = [⟨⟨0, 0⟩, 0, ⟨0, 0⟩⟩, ⟨⟨1, 0⟩, 0, ⟨1, 0⟩⟩] ∧
    exec ((Call.executePlan p).run 9) { m₁ with world := 7 } = some (.ok .done, m₂) ∧
    m₂.solver.cellAt ⟨1, 0⟩ = .assigned 8 ∧
    exec ((Call.executePlan p).run 9) m₂ = some (.ok .done, m₃) ∧
    ∀ v, m₃.solver.cellAt v = m₂.solver.cellAt v := by
  have hany : (Call.runAll 9 sampled ⟨.empty {}, 6, []⟩).any (fun m =>
      (exec ((Call.plan [.var ⟨0, 0⟩]).run 9) m).any fun q =>
        q.2.solver.passes < 2 ^ 64 ∧
        (Call.planOf? q.1).any fun p =>
          p.generation = q.2.solver.generation ∧
          p.steps = [⟨⟨0, 0⟩, 0, ⟨0, 0⟩⟩, ⟨⟨1, 0⟩, 0, ⟨1, 0⟩⟩]) = true := by
    decide +kernel
  simp only [Option.any_eq_true, decide_eq_true_eq] at hany
  obtain ⟨m, hm, ⟨r, m₁⟩, hplan, hpasses, p, hr, hgen, hsteps⟩ := hany
  obtain rfl := Call.eq_plan_of_planOf? hr
  have hstart : Run False {} [] (⟨.empty {}, 6, []⟩ : Machine Nat Nat) := .start 6
  obtain ⟨plans, h⟩ := runAll hstart (by decide) hm
  have h₁ := (h.call 9 (.plan [.var ⟨0, 0⟩]) trivial hplan).outside 7
  have hmem : (p, m₁.solver.changes) ∈
      (Call.plan [.var ⟨0, 0⟩] : Call Nat Nat).issued (.ok (.plan p)) m₁.solver.changes ++ plans :=
    List.mem_append_left _ (Call.mem_issued.2 ⟨_, rfl, rfl, rfl⟩)
  -- building the plan has left the constraints alone
  have hconstraints : ∀ c, m₁.solver.constraintAt? c = m.solver.constraintAt? c := by
    have hbuilt : Ensures ((Call.plan [.var ⟨0, 0⟩] : Call Nat Nat).run 9) m fun r m' =>
        ∀ p, r = .ok (.plan p) →
          ∀ c, m'.solver.constraintAt? c = m.solver.constraintAt? c := by
      unfold Call.run
      rw [SolveM.ensures_bind]
      refine SolveM.ensures_plan_marks.mono fun r m' hmarks => ?_
      cases r with
      | error e => exact nofun
      | ok q =>
        refine (SolveM.ensures_pure _).2 fun _ _ => ?_
        obtain rfl := hmarks q rfl
        rw [Solver.modifyVariables_eq m.solver]
        exact fun c => rfl
    exact hbuilt _ _ hplan p rfl
  obtain ⟨_, m₂, hexec, hsame₂, _, hholds, hworld, hagain⟩ := replay_settled h₁ hmem hgen
    (Nat.lt_add_of_pos_right (by decide)) hpasses
    ((undisturbed_sampled hm 7).congr hconstraints) rfl
  obtain ⟨m₃, hexec₃, hsame⟩ := hagain m₂.world hworld
  refine ⟨m, m₁, m₂, m₃, p, hm, hplan, hsteps, hexec 9, ?_, hexec₃ 9, hsame⟩
  -- the reading holds, and so does its successor
  have hcell : ∀ {c method}, (c, method) ∈ [(⟨0, 0⟩, reading),
      (⟨1, 0⟩, successor ⟨1, 0⟩ ⟨0, 0⟩)] → c ∈ p.steps.map PlanStep.constraint →
      m₂.solver.cellAt method.output =
        (method.runOn (valuesFrom m₂.solver.cellAt method.inputs) 7).1.store
          (m₁.solver.cellAt method.output) := by
    intro c method hmem hc
    obtain ⟨step, hstep, rfl⟩ := List.mem_map.1 hc
    obtain ⟨node, hnode, hmethod⟩ := enforcing_sampled hm hmem
    exact hholds step hstep 7 rfl
      ((hsame₂ _).trans ((hconstraints _).trans hnode)) hmethod
  have hreading : m₂.solver.cellAt ⟨0, 0⟩ = .assigned 7 :=
    hcell (c := ⟨0, 0⟩) (.head _) (by rw [hsteps]; decide)
  have hsuccessor := hcell (c := ⟨1, 0⟩) (.tail _ (.head _)) (by rw [hsteps]; decide)
  simp only [successor, Method.compute, valuesFrom, hreading] at hsuccessor
  exact hsuccessor

end Run

end DeltaBlue
