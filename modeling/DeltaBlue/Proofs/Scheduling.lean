import DeltaBlue.Proofs.Calls

/-!
# What a plan schedules

Scheduling takes constraints from a worklist, drops those that are not ready, and turns a ready one
into a step, which claims the output and puts the constraints that read it on the worklist. So the
steps stand in an order in which they can be run (`Solver.ReadyOrder`). A constraint that was dropped
comes back on the worklist with every further variable of it that is claimed; so in the end a
constraint that was due and has not become a step waits for a variable that is neither claimed nor
constant. `Solver.Scheduled` says both, and that nothing but marks has changed.
-/

namespace DeltaBlue

namespace Solver

variable {W T : Type}

/-- The step runs the method in force of its constraint. -/
def InForce (s : Solver W T) (step : PlanStep) : Prop :=
  ∃ node, s.constraintAt? step.constraint = some node ∧ node.enforcing = some step.method ∧
    node.output? = some step.output

/-- In a pass of planning, the value that the variable will have is known to be up to date. -/
def Known (s : Solver W T) (mark : Mark) (v : VarId) : Prop :=
  s.Claimed mark v ∨ s.constantAt v = true

/-- The steps can be run in their order. Each one runs the method in force of a constraint that is
due, its output is not claimed yet, and the other variables of the constraint are claimed or constant.
A step claims its output, and the constraints that read the output become due. -/
def ReadyOrder (s : Solver W T) :
    (ConstraintId → Prop) → (VarId → Prop) → List PlanStep → Prop
  | _, _, [] => True
  | due, claimed, step :: rest =>
    due step.constraint ∧ s.InForce step ∧ ¬ claimed step.output ∧
      (∀ v, s.Reads step.constraint v step.output → claimed v ∨ s.constantAt v = true) ∧
      s.ReadyOrder (fun c => due c ∨ ∃ w, s.Reads c step.output w)
        (fun v => v = step.output ∨ claimed v) rest

/-- What scheduling the constraints that are due comes to. -/
structure Scheduled (s s' : Solver W T) (mark : Mark) (due : ConstraintId → Prop)
    (steps : List PlanStep) : Prop where
  /-- The constraints are the same. -/
  constraintAt : ∀ c, s'.constraintAt? c = s.constraintAt? c
  /-- The outputs of the steps are claimed, and nothing else is changed in the variables. -/
  variableAt : ∀ v, s'.variableAt? v = (s.variableAt? v).map fun x =>
    if v ∈ steps.map PlanStep.output then { x with mark := mark } else x
  /-- No change of the set of enabled constraints was counted. -/
  changes : s'.changes = s.changes
  /-- The steps can be run in their order. -/
  order : s.ReadyOrder due (s.Claimed mark) steps
  /-- A constraint that was due and has not become a step waits for a variable. -/
  waits : ∀ c o, s.Determines c o → ¬ s'.Claimed mark o →
    (due c ∨ ∃ v ∈ steps.map PlanStep.output, s.Reads c v o) →
    ∃ v, s.Reads c v o ∧ ¬ s'.Known mark v

variable {s s' : Solver W T} {mark : Mark} {c : ConstraintId} {node : Constraint W T} {v : VarId}
  {due due' : ConstraintId → Prop} {claimed claimed' : VarId → Prop} {steps : List PlanStep}
  {step : PlanStep}

/-- Which method is in force is read off the record of the constraint. -/
theorem inForce_congr (h : ∀ c, s'.constraintAt? c = s.constraintAt? c) :
    s'.InForce step ↔ s.InForce step := by
  unfold InForce
  rw [h]

/-- A constraint whose method a step runs determines the output of the step. -/
theorem InForce.determines (h : s.InForce step) : s.Determines step.constraint step.output := by
  obtain ⟨node, hnode, _, hout⟩ := h
  exact ⟨node, hnode, hout⟩

/-! ## Steps in order -/

/-- The order may be looked at in another state of the graph, and from a wider stock of constraints
that are due. -/
theorem ReadyOrder.congr (h : s.ReadyOrder due claimed steps)
    (hc : ∀ c, s'.constraintAt? c = s.constraintAt? c)
    (hv : ∀ v, s'.constantAt v = s.constantAt v) (hdue : ∀ c, due c → due' c)
    (hclaimed : ∀ v, claimed' v ↔ claimed v) : s'.ReadyOrder due' claimed' steps := by
  -- along the steps, since each one widens what is due and what is claimed
  induction steps generalizing due due' claimed claimed' with
  | nil => trivial
  | cons step rest ih =>
    obtain ⟨hstep, hforce, hnot, hinputs, hrest⟩ := h
    refine ⟨hdue _ hstep, (inForce_congr hc).2 hforce, fun hcl => hnot ((hclaimed _).1 hcl), ?_,
      ih hrest ?_ ?_⟩
    · intro v hr
      rw [hclaimed, hv]
      exact hinputs v ((reads_congr hc).1 hr)
    · rintro c (hc' | ⟨w, hr⟩)
      · exact .inl (hdue c hc')
      · exact .inr ⟨w, (reads_congr hc).2 hr⟩
    · exact fun v => or_congr_right (hclaimed v)

/-- Every step of an order runs the method in force of its constraint. -/
theorem ReadyOrder.inForce (h : s.ReadyOrder due claimed steps) (hmem : step ∈ steps) :
    s.InForce step := by
  induction steps generalizing due claimed with
  | nil => cases hmem
  | cons first rest ih =>
    rcases List.mem_cons.1 hmem with rfl | hmem
    · exact h.2.1
    · exact ih h.2.2.2.2 hmem

/-- No step writes what was claimed before, and no two steps write the same variable. -/
theorem ReadyOrder.outputs (h : s.ReadyOrder due claimed steps) :
    (steps.map PlanStep.output).Nodup ∧ ∀ v ∈ steps.map PlanStep.output, ¬ claimed v := by
  induction steps generalizing due claimed with
  | nil => exact ⟨List.nodup_nil, nofun⟩
  | cons step rest ih =>
    obtain ⟨_, _, hnot, _, hrest⟩ := h
    obtain ⟨hnodup, hfree⟩ := ih hrest
    rw [List.map_cons, List.nodup_cons]
    refine ⟨⟨fun hmem => hfree _ hmem (.inl rfl), hnodup⟩, ?_⟩
    rw [List.forall_mem_cons]
    exact ⟨hnot, fun v hv hcl => hfree v hv (.inr hcl)⟩

/-! ## Readiness -/

/-- Whether variables are known is asked of all of them. -/
theorem exists_allKnown (mark : Mark) {vs : List VarId} (hlive : ∀ v ∈ vs, (s.variableAt? v).isSome) :
    ∃ b, s.allKnown mark vs = .ok b ∧ (b = true ↔ ∀ v ∈ vs, s.Known mark v) := by
  induction vs with
  | nil => exact ⟨true, rfl, iff_of_true rfl nofun⟩
  | cons v vs ih =>
    obtain ⟨x, hx⟩ := Option.isSome_iff_exists.1 (hlive v List.mem_cons_self)
    obtain ⟨b, hb, hiff⟩ := ih fun u hu => hlive u (List.mem_cons_of_mem v hu)
    have hknown : s.Known mark v ↔ x.mark = mark ∨ x.constant = true := by
      unfold Known Claimed
      rw [constantAt_eq hx, hx]
      simp
    unfold allKnown
    rw [lookupVariable_eq_ok hx]
    simp only [bind, Except.bind]
    split
    · next h => exact ⟨b, hb, by rw [hiff, List.forall_mem_cons, hknown, and_iff_right h]⟩
    · next h =>
      refine ⟨false, rfl, iff_of_false Bool.false_ne_true fun hall => h ?_⟩
      exact hknown.1 (hall v List.mem_cons_self)

/-- A constraint is ready if it has a method in force whose output is unclaimed and all of whose other
variables are known, and nothing is looked up that does not exist. -/
theorem WellFormed.readyStep?_cases (h : s.WellFormed) (mark : Mark)
    (hnode : s.constraintAt? c = some node) :
    (∃ step, s.readyStep? mark c = .ok (some step) ∧ step.constraint = c ∧ s.InForce step ∧
      ¬ s.Claimed mark step.output ∧ ∀ v, s.Reads c v step.output → s.Known mark v) ∨
    s.readyStep? mark c = .ok none ∧ ∀ o, s.Determines c o → ¬ s.Claimed mark o →
      ∃ v, s.Reads c v o ∧ ¬ s.Known mark v := by
  unfold readyStep?
  simp only [lookupConstraint_eq_ok hnode, bind, Except.bind]
  cases hout : node.output? with
  | none =>
    refine .inr ⟨by cases node.enforcing <;> rfl, ?_⟩
    rintro o ⟨n, hn, ho⟩
    obtain rfl := Option.some.inj (hnode.symm.trans hn)
    rw [hout] at ho
    cases ho
  | some o =>
    obtain ⟨i, method, hi, hmethod, rfl⟩ := Constraint.output?_eq_some_iff.1 hout
    have hmem := Definition.mem_of_method? hmethod
    obtain ⟨x, hx⟩ := Option.isSome_iff_exists.1
      (h.mentioned hnode _ (Definition.output_mem_vars hmem))
    have hclaimed : s.Claimed mark method.output ↔ x.mark = mark := by simp [Claimed, hx]
    -- the variables that are asked about are those that the method in force reads
    have hreads : ∀ v, s.Reads c v method.output ↔
        v ∈ node.definition.vars.filter (· ≠ method.output) := by
      intro v
      simp only [Reads, hnode, Option.some.injEq, exists_eq_left', hout, true_and, List.mem_filter,
        decide_eq_true_eq]
    have hlive : ∀ v ∈ node.definition.vars.filter (· ≠ method.output),
        (s.variableAt? v).isSome := fun v hv => h.mentioned hnode v (List.mem_filter.1 hv).1
    obtain ⟨b, hb, hiff⟩ := exists_allKnown mark hlive
    -- a constraint determines one variable at most, so only this output is asked about
    have honly : ∀ {o}, s.Determines c o → o = method.output :=
      fun ho => ho.unique ⟨node, hnode, hout⟩
    simp only [hi, lookupVariable_eq_ok hx, hb]
    split
    · next hmark =>
      refine .inr ⟨rfl, fun o ho hfree => absurd ?_ hfree⟩
      rw [honly ho]
      exact hclaimed.2 hmark
    · next hmark =>
      cases b with
      | true =>
        refine .inl ⟨⟨c, i, method.output⟩, rfl, rfl, ⟨node, hnode, hi, hout⟩,
          fun hcl => hmark (hclaimed.1 hcl), fun v hv => hiff.1 rfl v ((hreads v).1 hv)⟩
      | false =>
        refine .inr ⟨rfl, fun o ho _ => ?_⟩
        obtain rfl := honly ho
        have hnot : ¬ ∀ v ∈ node.definition.vars.filter (· ≠ method.output), s.Known mark v :=
          fun hall => Bool.false_ne_true (hiff.2 hall)
        simp only [not_forall] at hnot
        obtain ⟨v, hv, hunknown⟩ := hnot
        exact ⟨v, (hreads v).2 hv, hunknown⟩

/-! ## One step after another -/

/-- A mark has nothing to do with constancy. -/
theorem constantAt_marked (v u : VarId) :
    (s.modifyVariable v fun x => { x with mark := mark }).constantAt u = s.constantAt u :=
  (samePaint_of_map (variableAt?_marked v mark u) fun _ => ⟨rfl, rfl, rfl⟩).2.1

/-- Scheduling changes nothing but marks in a variable. -/
theorem Scheduled.samePaint (h : s.Scheduled s' mark due steps) (v : VarId) : SamePaint s s' v :=
  samePaint_of_map (h.variableAt v) fun x => by split <;> exact ⟨rfl, rfl, rfl⟩

/-- Scheduling changes no constancy. -/
theorem Scheduled.constantAt (h : s.Scheduled s' mark due steps) (v : VarId) :
    s'.constantAt v = s.constantAt v :=
  (h.samePaint v).2.1

/-- Scheduling keeps a graph well-formed. -/
theorem Scheduled.wellFormed (hs : s.Scheduled s' mark due steps) (h : s.WellFormed) :
    s'.WellFormed :=
  h.of_links hs.constraintAt fun v => by
    rw [hs.variableAt, Option.map_map]
    congr 1
    funext x
    simp only [Function.comp_apply]
    split <;> rfl

/-- The outputs of the steps are claimed, besides what was claimed before. -/
theorem Scheduled.claimed_iff (h : s.Scheduled s' mark due steps) :
    s'.Claimed mark v ↔ s.Claimed mark v ∨ (s.variableAt? v).isSome ∧
      v ∈ steps.map PlanStep.output := by
  unfold Claimed
  rw [h.variableAt]
  cases s.variableAt? v with
  | none => simp
  | some x =>
    by_cases hv : v ∈ steps.map PlanStep.output
    · simp [hv]
    · simp [hv]

/-- With nothing on the worklist there is nothing to do. -/
theorem scheduled_nil (hdue : ∀ c, ¬ due c) : s.Scheduled s mark due [] where
  constraintAt _ := rfl
  variableAt v := by simp
  changes := rfl
  order := trivial
  waits := by
    rintro c o _ _ (hc | ⟨v, hv, _⟩)
    · exact absurd hc (hdue c)
    · cases hv

/-- A constraint that is not ready can be dropped. -/
theorem Scheduled.drop (h : s.Scheduled s' mark due' steps)
    (hdue : ∀ k, due k → k = c ∨ due' k) (hdue' : ∀ k, due' k → due k)
    (hunready : ∀ o, s.Determines c o → ¬ s.Claimed mark o →
      ∃ v, s.Reads c v o ∧ ¬ s.Known mark v) : s.Scheduled s' mark due steps where
  constraintAt := h.constraintAt
  variableAt := h.variableAt
  changes := h.changes
  order := h.order.congr (fun _ => rfl) (fun _ => rfl) hdue' fun _ => Iff.rfl
  waits := by
    rintro k o hk hfree (hd | hread)
    · rcases hdue k hd with rfl | hd
      · have hfree' : ¬ s.Claimed mark o := fun hcl => hfree (h.claimed_iff.2 (.inl hcl))
        obtain ⟨v, hr, hunknown⟩ := hunready o hk hfree'
        -- if the variable it waited for is claimed later, the constraint becomes due again
        by_cases hv : v ∈ steps.map PlanStep.output
        · exact h.waits k o hk hfree (.inr ⟨v, hv, hr⟩)
        · refine ⟨v, hr, fun hknown => hunknown ?_⟩
          rcases hknown with hcl | hconst
          · exact .inl ((h.claimed_iff.1 hcl).resolve_right fun hmem => hv hmem.2)
          · exact .inr (h.constantAt v ▸ hconst)
      · exact h.waits k o hk hfree (.inl hd)
    · exact h.waits k o hk hfree (.inr hread)

/-- A ready constraint becomes a step, which claims its output. -/
theorem Scheduled.cons {x : Variable T} (hforce : s.InForce step) (hdue : due step.constraint)
    (hx : s.variableAt? step.output = some x) (hfree : ¬ s.Claimed mark step.output)
    (hknown : ∀ v, s.Reads step.constraint v step.output → s.Known mark v)
    (hdue' : ∀ k, due' k → due k ∨ ∃ w, s.Reads k step.output w)
    (hback : ∀ k, due k ∨ (∃ w, s.Reads k step.output w) → k = step.constraint ∨ due' k)
    (h : (s.modifyVariable step.output fun x => { x with mark := mark }).Scheduled s' mark due'
      steps) : s.Scheduled s' mark due (step :: steps) where
  constraintAt := h.constraintAt
  variableAt v := by
    rw [h.variableAt, variableAt?_marked]
    cases s.variableAt? v with
    | none => rfl
    | some y =>
      by_cases hv : v = step.output
      · simp [hv]
      · simp [hv]
  changes := h.changes
  order := by
    refine ⟨hdue, hforce, hfree, hknown, h.order.congr (fun _ => rfl)
      (fun v => (constantAt_marked step.output v).symm) hdue' fun v => ?_⟩
    rw [claimed_marked]
    constructor
    · rintro (rfl | hcl)
      · exact ⟨by rw [hx]; rfl, .inl rfl⟩
      · obtain ⟨y, hy, hmark⟩ := hcl
        exact ⟨by rw [hy]; rfl, .inr ⟨y, hy, hmark⟩⟩
    · exact And.right
  waits := by
    intro k o hk hfree' hcause
    have hclaimed : s'.Claimed mark step.output :=
      h.claimed_iff.2 (.inl (claimed_marked.2 ⟨by rw [hx]; rfl, .inl rfl⟩))
    -- the constraint of the step itself has its output claimed
    have hne : k ≠ step.constraint := by
      rintro rfl
      obtain rfl := hk.unique hforce.determines
      exact hfree' hclaimed
    refine h.waits k o hk hfree' ?_
    rcases hcause with hd | ⟨v, hv, hr⟩
    · exact .inl ((hback k (.inl hd)).resolve_left hne)
    · rcases List.mem_cons.1 hv with rfl | hv
      · exact .inl ((hback k (.inr ⟨o, hr⟩)).resolve_left hne)
      · exact .inr ⟨v, hv, hr⟩

/-! ## Seeds -/

/-- The variable or constraint exists. -/
def Live (s : Solver W T) : Handle → Prop
  | .var v => (s.variableAt? v).isSome
  | .constraint c => (s.constraintAt? c).isSome

/-- The seeds name the constraint, or a variable to which it is incident. -/
def Named (s : Solver W T) (seeds : List Handle) (c : ConstraintId) : Prop :=
  .constraint c ∈ seeds ∨
    ∃ v x, Handle.var v ∈ seeds ∧ s.variableAt? v = some x ∧ c ∈ x.incident

/-- A variable in front of the seeds names the constraints that it is incident to. -/
theorem named_cons_var {seeds : List Handle} {x : Variable T} (hx : s.variableAt? v = some x) :
    s.Named (.var v :: seeds) c ↔ c ∈ x.incident ∨ s.Named seeds c := by
  unfold Named
  constructor
  · rintro (hc | ⟨u, y, hu, hy, hc⟩)
    · exact .inr (.inl ((List.mem_cons.1 hc).resolve_left nofun))
    · rcases List.mem_cons.1 hu with hu | hu
      · obtain rfl := Handle.var.inj hu
        obtain rfl := Option.some.inj (hx.symm.trans hy)
        exact .inl hc
      · exact .inr (.inr ⟨u, y, hu, hy, hc⟩)
  · rintro (hc | hc | ⟨u, y, hu, hy, hc⟩)
    · exact .inr ⟨v, x, List.mem_cons_self, hx, hc⟩
    · exact .inl (List.mem_cons_of_mem _ hc)
    · exact .inr ⟨u, y, List.mem_cons_of_mem _ hu, hy, hc⟩

/-- A constraint in front of the seeds names itself. -/
theorem named_cons_constraint {seeds : List Handle} {k : ConstraintId} :
    s.Named (.constraint k :: seeds) c ↔ c = k ∨ s.Named seeds c := by
  unfold Named
  rw [List.mem_cons, Handle.constraint.injEq, or_assoc]
  refine or_congr_right (or_congr_right ?_)
  refine exists_congr fun v => exists_congr fun x => and_congr_left fun _ => ?_
  exact List.mem_cons.trans (or_iff_right nofun)

/-- Seeds that exist give the volatile sources that they name. -/
theorem exists_sources {seeds : List Handle} (found : OrderedSet ConstraintId)
    (hlive : ∀ seed ∈ seeds, s.Live seed) :
    ∃ hot, s.sources seeds found = .ok hot ∧
      ∀ c, c ∈ hot ↔ c ∈ found ∨ s.isVolatileSource c = true ∧ s.Named seeds c := by
  -- along the seeds, with what has been found so far as a parameter
  induction seeds generalizing found with
  | nil =>
    refine ⟨found, rfl, fun c => (or_iff_left ?_).symm⟩
    rintro ⟨_, hc | ⟨v, x, hv, _⟩⟩
    · cases hc
    · cases hv
  | cons seed seeds ih =>
    have hlive' : ∀ seed ∈ seeds, s.Live seed :=
      fun seed hs => hlive seed (List.mem_cons_of_mem _ hs)
    cases seed with
    | var v =>
      obtain ⟨x, hx⟩ := Option.isSome_iff_exists.1 (hlive _ List.mem_cons_self)
      unfold sources
      rw [lookupVariable_eq_ok hx]
      obtain ⟨hot, hhot, hiff⟩ :=
        ih (found.insertAll (x.incident.toList.filter s.isVolatileSource)) hlive'
      refine ⟨hot, hhot, fun c => ?_⟩
      rw [hiff, OrderedSet.mem_insertAll, List.mem_filter, ← OrderedSet.mem_def, named_cons_var hx,
        or_assoc, and_or_left, @and_comm (c ∈ x.incident)]
    | constraint k =>
      obtain ⟨node, hnode⟩ := Option.isSome_iff_exists.1 (hlive _ List.mem_cons_self)
      unfold sources
      rw [lookupConstraint_eq_ok hnode]
      obtain ⟨hot, hhot, hiff⟩ := ih (found.insertAll ([k].filter s.isVolatileSource)) hlive'
      refine ⟨hot, hhot, fun c => ?_⟩
      rw [hiff, OrderedSet.mem_insertAll, List.mem_filter, List.mem_singleton,
        named_cons_constraint, or_assoc, and_or_left, @and_comm (c = k)]

/-- What the seeds give are constraints that exist. -/
theorem live_of_sources {seeds : List Handle} {found hot : OrderedSet ConstraintId}
    (hs : s.sources seeds found = .ok hot) (hfound : ∀ c ∈ found, (s.constraintAt? c).isSome) :
    ∀ c ∈ hot, (s.constraintAt? c).isSome := by
  -- only volatile sources are put in, and a volatile source exists
  have hinsert : ∀ {found : OrderedSet ConstraintId}, (∀ c ∈ found, (s.constraintAt? c).isSome) →
      ∀ cs : List ConstraintId, ∀ c ∈ found.insertAll (cs.filter s.isVolatileSource),
        (s.constraintAt? c).isSome := by
    intro found hfound cs c hc
    rcases OrderedSet.mem_insertAll.1 hc with hc | hc
    · exact hfound c hc
    · exact Option.isSome_of_any (List.mem_filter.1 hc).2
  induction seeds generalizing found with
  | nil =>
    obtain rfl := Except.ok.inj hs
    exact hfound
  | cons seed seeds ih =>
    cases seed with
    | var v =>
      unfold sources at hs
      cases hx : s.lookupVariable v with
      | error e => rw [hx] at hs; cases hs
      | ok x => rw [hx] at hs; exact ih hs (hinsert hfound _)
    | constraint k =>
      unfold sources at hs
      cases hx : s.lookupConstraint k with
      | error e => rw [hx] at hs; cases hs
      | ok x => rw [hx] at hs; exact ih hs (hinsert hfound _)

end Solver

namespace SolveM

variable {W T : Type} {m : Machine W T}

/-- Scheduling does not fail. -/
theorem ensures_schedule_scheduled {mark : Mark} {fuel : Nat} {hot : OrderedSet ConstraintId}
    (h : m.solver.WellFormed) (hlive : ∀ c ∈ hot, (m.solver.constraintAt? c).isSome) :
    Ensures (schedule mark fuel hot) m fun r m' => m'.world = m.world ∧
      ∃ steps, r = .ok steps ∧ m.solver.Scheduled m'.solver mark (· ∈ hot) steps := by
  -- on the fuel: a constraint of the worklist is dropped, or it becomes the first step of what the
  -- rest comes to
  induction fuel generalizing m hot with
  | zero => exact ensures_unfinished
  | succ fuel ih =>
    unfold schedule
    cases hpop : hot.pop? with
    | none =>
      refine (ensures_pure _).2 ⟨rfl, [], rfl, Solver.scheduled_nil fun c => ?_⟩
      exact OrderedSet.not_mem_of_pop? hpop
    | some p =>
      obtain ⟨c, rest⟩ := p
      have hmem : ∀ {k}, k ∈ hot ↔ k = c ∨ k ∈ rest := OrderedSet.mem_of_pop? hpop
      obtain ⟨node, hnode⟩ := Option.isSome_iff_exists.1 (hlive c (hmem.2 (.inl rfl)))
      have hlive' : ∀ k ∈ rest, (m.solver.constraintAt? k).isSome :=
        fun k hk => hlive k (hmem.2 (.inr hk))
      simp only
      rw [ensures_bind, ensures_query]
      rcases h.readyStep?_cases mark hnode with
        ⟨step, hready, rfl, hforce, hfree, hknown⟩ | ⟨hready, hunready⟩
      · rw [hready]
        have ⟨n, hn, _, hout⟩ := hforce
        obtain ⟨x, hx⟩ := Option.isSome_iff_exists.1
          (h.mentioned hn _ (Constraint.mem_vars_of_output? hout))
        simp only [ensures_bind]
        refine .changeVariable hx ?_
        have hx' : (m.solver.modifyVariable step.output fun x =>
            { x with mark := mark }).variableAt? step.output = some { x with mark := mark } := by
          rw [Solver.variableAt?_marked, hx, Option.map_some, if_pos rfl]
        simp only
        refine .getVariable (x := { x with mark := mark }) hx' ?_
        simp only [ensures_ask]
        -- what is put on the worklist are the constraints that read the output
        have hwf := h.marked step.output mark
        have hcons : ∀ k, k ∈ (m.solver.modifyVariable step.output fun x =>
            { x with mark := mark }).consumers { x with mark := mark } ↔
            ∃ w, m.solver.Reads k step.output w := by
          intro k
          rw [hwf.mem_consumers hx']
          exact exists_congr fun w => Solver.reads_congr fun _ => rfl
        refine (ih hwf ?_).mono ?_
        · intro k hk
          rcases OrderedSet.mem_insertAll.1 hk with hk | hk
          · exact hlive' k hk
          · obtain ⟨w, n', hn', _⟩ := (hcons k).1 hk
            exact Option.isSome_iff_exists.2 ⟨n', hn'⟩
        · rintro r m' ⟨hworld, steps, rfl, hsteps⟩
          refine (ensures_pure _).2 ⟨hworld, step :: steps, rfl, ?_⟩
          refine .cons hforce (hmem.2 (.inl rfl)) hx hfree hknown ?_ ?_ hsteps
          · intro k hk
            exact (OrderedSet.mem_insertAll.1 hk).imp (fun hk => hmem.2 (.inr hk)) (hcons k).1
          · rintro k (hk | hk)
            · exact (hmem.1 hk).imp_right fun hk => OrderedSet.mem_insertAll.2 (.inl hk)
            · exact .inr (OrderedSet.mem_insertAll.2 (.inr ((hcons k).2 hk)))
      · -- the constraint is not ready and is dropped
        rw [hready]
        refine (ih h hlive').mono ?_
        rintro r m' ⟨hworld, steps, rfl, hsteps⟩
        exact ⟨hworld, steps, rfl, hsteps.drop (fun k => hmem.1) (fun k hk => hmem.2 (.inr hk))
          hunready⟩

/-- A plan is built at the generation that it names, unless a seed does not exist. -/
theorem ensures_plan_scheduled {fuel : Nat} {seeds : List Handle} {hot : OrderedSet ConstraintId}
    (h : m.solver.WellFormed) (hhot : m.solver.sources seeds .empty = .ok hot) :
    Ensures (plan fuel seeds) m fun r m' => m'.world = m.world ∧
      ∃ p, r = .ok p ∧ p.generation = m'.solver.generation ∧
        m.solver.Scheduled m'.solver (.ofPass (m.solver.passes + 1)) (· ∈ hot) p.steps := by
  unfold plan nextMark
  rw [ensures_bind, ensures_query, hhot]
  simp only [ensures_bind, ensures_update, ensures_ask]
  have hlive := Solver.live_of_sources hhot (fun c hc => absurd hc List.not_mem_nil)
  refine (ensures_schedule_scheduled (m := ⟨_, m.world, m.journal⟩) h.nextPass hlive).mono ?_
  rintro _ m₁ ⟨hworld, steps, rfl, hsteps⟩
  simp only [ensures_count, ensures_note, ensures_pure]
  -- a new pass and the counting of the plan are nothing that the graph knows of
  exact ⟨hworld, ⟨steps, _⟩, rfl, rfl, hsteps.constraintAt, hsteps.variableAt, hsteps.changes,
    hsteps.order.congr (fun _ => rfl) (fun _ => rfl) (fun _ => id) fun _ => Iff.rfl, hsteps.waits⟩

/-- A plan that is built schedules the sources that its seeds name. -/
theorem ensures_plan_built {fuel : Nat} {seeds : List Handle} (h : m.solver.WellFormed) :
    Ensures (plan fuel seeds) m fun r m' => ∀ p, r = .ok p → ∃ hot : OrderedSet ConstraintId,
      m.solver.Scheduled m'.solver (.ofPass (m.solver.passes + 1)) (· ∈ hot) p.steps := by
  cases hhot : m.solver.sources seeds .empty with
  | error e =>
    unfold plan
    rw [ensures_bind, ensures_query, hhot]
    intro p hp
    cases hp
  | ok hot =>
    refine (ensures_plan_scheduled h hhot).mono ?_
    rintro r m' ⟨_, p, rfl, _, hs⟩ q hq
    obtain rfl := Except.ok.inj hq
    exact ⟨hot, hs⟩

end SolveM

end DeltaBlue
