import DeltaBlue.Plan
import DeltaBlue.Proofs.Rest

/-!
# Changes of a sound graph

Besides adding and removing, five kinds of change happen to a graph between calls: counters change,
variables that no constraint mentions come and go, constraints that are not part of the graph come
and go, a constraint enters the graph, and cells are written from outside. Each keeps a sound graph
sound.

All of them but the entering leave the enabled constraints as they are, and the walk strengths and
constancies of the variables of these: they are `Aside`. So a step of a plan that was good before such
a change is good after it. A good step (`Solver.Good`) runs the method in force of its constraint,
and the output of the method is not constant. The change is then also `Quiet`, as is every change
that is counted as one of the set of enabled constraints. All but the writing of cells leave the cells of
the variables as they are, too: they are `Beside`.
-/

namespace DeltaBlue

namespace Solver

variable {W T : Type}

/-- The step runs the method in force of its constraint, and the output is not constant. -/
def Good (s : Solver W T) (step : PlanStep) : Prop :=
  ∃ node, s.constraintAt? step.constraint = some node ∧ node.enforcing = some step.method ∧
    node.output? = some step.output ∧ s.constantAt step.output = false

/-- Unless the set of enabled constraints was changed, good steps stay good. -/
structure Quiet (s s' : Solver W T) : Prop where
  /-- Changes are counted forward. -/
  changes : s.changes ≤ s'.changes
  /-- Passes are counted forward. -/
  passes : s.passes ≤ s'.passes
  /-- Good steps stay good. -/
  good : s'.changes = s.changes → ∀ step, s.Good step → s'.Good step

/-- Two quiet changes are quiet. If the changes come to none in the end, neither of them counted
one. -/
theorem Quiet.transitive : SolveM.Transitive (Quiet (W := W) (T := T)) where
  refl _ := ⟨Nat.le_refl _, Nat.le_refl _, fun _ _ h => h⟩
  trans h h' :=
    { changes := Nat.le_trans h.changes h'.changes
      passes := Nat.le_trans h.passes h'.passes
      good := by
        intro he step hs
        have h1 := h.changes
        have h2 := h'.changes
        -- the counts only grow, so they are equal all along
        exact h'.good (by omega) step (h.good (by omega) step hs) }

/-- The enabled constraints are the same, and so are the walk strengths and constancies of their
variables; and nothing that went wrong was counted. -/
structure Aside (s s' : Solver W T) : Prop where
  /-- The enabled constraints are the same, with the same methods in force. -/
  constraintAt : ∀ {c node}, node.enabled = true →
    (s'.constraintAt? c = some node ↔ s.constraintAt? c = some node)
  /-- Their variables carry the same flags. -/
  flags : ∀ {c node}, s.constraintAt? c = some node → node.enabled = true →
    ∀ v ∈ node.definition.vars, s'.walkAt v = s.walkAt v ∧ s'.constantAt v = s.constantAt v
  /-- Passes are counted forward. -/
  passes : s.passes ≤ s'.passes
  /-- No change of the set of enabled constraints was counted. -/
  changes : s'.changes = s.changes
  /-- Neither was a cycle or an unsatisfiable constraint. -/
  faults : s'.metrics.faults = s.metrics.faults

/-- Two changes aside are aside: the enabled constraints in the middle are those of the
beginning. -/
theorem Aside.transitive : SolveM.Transitive (Aside (W := W) (T := T)) where
  refl _ := ⟨fun _ => Iff.rfl, fun _ _ _ _ => ⟨rfl, rfl⟩, Nat.le_refl _, rfl, rfl⟩
  trans h h' :=
    { constraintAt := fun hen => (h'.constraintAt hen).trans (h.constraintAt hen)
      flags := by
        intro c node hnode hen v hv
        obtain ⟨hwalk, hconstant⟩ := h.flags hnode hen v hv
        obtain ⟨hwalk', hconstant'⟩ := h'.flags ((h.constraintAt hen).2 hnode) hen v hv
        exact ⟨hwalk'.trans hwalk, hconstant'.trans hconstant⟩
      passes := Nat.le_trans h.passes h'.passes
      changes := h'.changes.trans h.changes
      faults := h'.faults.trans h.faults }

variable {s s' : Solver W T} {cells : Prop} {c k : ConstraintId} {node : Constraint W T}
  {v : VarId}

/-- A change that is counted is quiet whatever it does. -/
theorem quiet_of_changes_lt (h : s.changes < s'.changes) (hp : s.passes ≤ s'.passes) :
    s.Quiet s' :=
  ⟨Nat.le_of_lt h, hp, fun he => absurd he (Nat.ne_of_gt h)⟩

/-- A good step runs a method in force, which an enabled constraint has. -/
theorem Aside.quiet (h : s.WellFormed) (ha : s.Aside s') : s.Quiet s' where
  changes := Nat.le_of_eq ha.changes.symm
  passes := ha.passes
  good := by
    rintro _ step ⟨node, hnode, hi, hout, hconstant⟩
    have hen := (h.enforcing hnode hi).1
    refine ⟨node, (ha.constraintAt hen).2 hnode, hi, hout, ?_⟩
    rw [(ha.flags hnode hen _ (Constraint.mem_vars_of_output? hout)).2]
    exact hconstant

/-- A change that keeps all constraints and the flags of the variables that they mention. -/
theorem aside_of_flags (hc : ∀ c, s'.constraintAt? c = s.constraintAt? c)
    (hv : ∀ {c node}, s.constraintAt? c = some node → ∀ v ∈ node.definition.vars,
      s'.walkAt v = s.walkAt v ∧ s'.constantAt v = s.constantAt v)
    (hp : s.passes ≤ s'.passes) (hchanges : s'.changes = s.changes)
    (hfaults : s'.metrics.faults = s.metrics.faults) : s.Aside s' where
  constraintAt _ := by rw [hc]
  flags hnode _ := hv hnode
  passes := hp
  changes := hchanges
  faults := hfaults

/-- A change aside that leaves the cells of the enabled constraints' variables alone too. -/
structure Beside (s s' : Solver W T) : Prop extends Aside s s' where
  /-- The variables of the enabled constraints have the same cells. -/
  cellAt : ∀ {c node}, s.constraintAt? c = some node → node.enabled = true →
    ∀ v ∈ node.definition.vars, s'.cellAt v = s.cellAt v

/-- Two changes beside the graph are beside it. -/
theorem Beside.transitive : SolveM.Transitive (Beside (W := W) (T := T)) where
  refl s := ⟨Aside.transitive.refl s, fun _ _ _ _ => rfl⟩
  trans h h' :=
    { toAside := Aside.transitive.trans h.toAside h'.toAside
      cellAt := fun hnode hen v hv =>
        (h'.cellAt ((h.constraintAt hen).2 hnode) hen v hv).trans (h.cellAt hnode hen v hv) }

/-- A change that keeps all constraints and what the variables that they mention look like. -/
theorem beside_of_samePaint (hc : ∀ c, s'.constraintAt? c = s.constraintAt? c)
    (hv : ∀ {c node}, s.constraintAt? c = some node → ∀ v ∈ node.definition.vars, SamePaint s s' v)
    (hp : s.passes ≤ s'.passes) (hchanges : s'.changes = s.changes)
    (hfaults : s'.metrics.faults = s.metrics.faults) : s.Beside s' where
  toAside := aside_of_flags hc
    (fun hnode v hmem => ⟨(hv hnode v hmem).1, (hv hnode v hmem).2.1⟩) hp hchanges hfaults
  cellAt hnode _ v hmem := (hv hnode v hmem).2.2

/-! ## Counters -/

/-- The work counters have no part in soundness. -/
theorem Sound.alike (h : s.Sound cells) (ha : s.Alike s') : s'.Sound cells where
  toWellFormed := h.toWellFormed.repaints ha.repaints
  rest hlt := ha.rest h.toWellFormed (h.rest (ha.passes ▸ hlt))

/-- A change of the work counters that counts no fault is beside the graph. -/
theorem Alike.beside (ha : s.Alike s') (hfaults : s'.metrics.faults = s.metrics.faults) :
    s.Beside s' :=
  beside_of_samePaint ha.constraintAt (fun _ v _ => samePaint_of_eq (ha.variableAt v))
    (Nat.le_of_eq ha.passes.symm) ha.changes hfaults

/-- Counting a change keeps the graph sound. -/
theorem Sound.changed (h : s.Sound cells) (n : Nat) :
    ({ s with changes := n } : Solver W T).Sound cells where
  toWellFormed := h.toWellFormed.of_links (fun _ => rfl) fun _ => rfl
  rest hlt :=
    have hrest := h.rest hlt
    ⟨fun k => (hrest.settled k).of_same (fun _ => rfl) fun _ => samePaint_of_eq rfl,
      hrest.released, hrest.acyclic, hrest.stamped⟩

/-! ## Variables that no constraint mentions -/

/-- No constraint mentions the variable. -/
def Unmentioned (s : Solver W T) (v : VarId) : Prop :=
  ∀ {c node}, s.constraintAt? c = some node → v ∉ node.definition.vars

/-- A variable as it is made: no constraint mentions it and no pass has claimed it. -/
structure Untouched (x : Variable T) : Prop where
  /-- No enabled constraint mentions it. -/
  incident : x.incident = .empty
  /-- No constraint determines it. -/
  determinedBy : x.determinedBy = none
  /-- It is not held. -/
  walkStrength : x.walkStrength = .weakest
  /-- It is constant. -/
  constant : x.constant = true
  /-- It is unclaimed. -/
  mark : x.mark = .none

section Unmentioned

variable (hc : ∀ c, s'.constraintAt? c = s.constraintAt? c)
  (hv : ∀ v, s'.variableAt? v = s.variableAt? v ∨
    s.Unmentioned v ∧ ∀ x, s'.variableAt? v = some x → Untouched x)
include hc hv

/-- Only variables that no constraint mentions have come or gone. -/
theorem Sound.of_unmentioned (h : s.Sound cells) (hp : s'.passes = s.passes) :
    s'.Sound cells := by
  -- whatever a constraint mentions has stayed as it was
  have hmentioned : ∀ {c node}, s.constraintAt? c = some node →
      ∀ v ∈ node.definition.vars, s'.variableAt? v = s.variableAt? v :=
    fun hn v hmem => (hv v).resolve_right fun hu => hu.1 hn hmem
  have hdet : ∀ {c v}, s'.Determines c v ↔ s.Determines c v := by
    intro c v
    unfold Determines
    rw [hc]
  -- the four parts of the structure, and then rest
  refine ⟨⟨⟨?_⟩, ?_, ?_, ?_⟩, fun hlt => ?_⟩
  · intro c node hn v hmem
    rw [hc] at hn
    rw [hmentioned hn v hmem]
    exact h.mentioned hn v hmem
  · intro v x hx c
    rw [hdet]
    rcases hv v with hsame | ⟨hun, hfresh⟩
    · exact h.determined (hsame ▸ hx) c
    · rw [(hfresh x hx).determinedBy]
      -- a new variable has no determiner, and no constraint could be one
      refine iff_of_false nofun ?_
      rintro ⟨node, hn, hout⟩
      exact hun hn (Constraint.mem_vars_of_output? hout)
  · intro c node i hn
    rw [hc] at hn
    exact h.enforcing hn
  · intro v x hx c
    rw [hc]
    rcases hv v with hsame | ⟨hun, hfresh⟩
    · exact h.incident (hsame ▸ hx) c
    · rw [(hfresh x hx).incident]
      refine iff_of_false List.not_mem_nil ?_
      rintro ⟨node, hn, _, hmem⟩
      exact hun hn hmem
  · have hrest := h.rest (hp ▸ hlt)
    refine ⟨fun k => ?_, ?_, hrest.acyclic.of_reads (reads_congr hc).1, ?_⟩
    · refine (hrest.settled k).of_samePaint ?_ ?_
      · intro node hn
        exact ⟨node, (hc k).symm.trans hn, rfl, rfl⟩
      · intro node hn v hmem
        exact samePaint_of_eq (hmentioned hn v hmem)
    · intro v x hx hnone
      rcases hv v with hsame | ⟨_, hfresh⟩
      · exact hrest.released (hsame ▸ hx) hnone
      · exact ⟨(hfresh x hx).walkStrength, (hfresh x hx).constant⟩
    · intro v x hx
      rw [hp]
      rcases hv v with hsame | ⟨_, hfresh⟩
      · exact hrest.stamped (hsame ▸ hx)
      · rw [(hfresh x hx).mark]
        exact Nat.zero_le _

/-- Making and forgetting variables that no constraint mentions is done beside the graph. -/
theorem beside_of_unmentioned (hp : s'.passes = s.passes) (hchanges : s'.changes = s.changes)
    (hfaults : s'.metrics.faults = s.metrics.faults) : s.Beside s' :=
  beside_of_samePaint hc
    -- what a constraint mentions is none of the variables in question
    (fun hn v hmem => samePaint_of_eq ((hv v).resolve_right fun hu => hu.1 hn hmem))
    (Nat.le_of_eq hp.symm) hchanges hfaults

end Unmentioned

/-! ## Constraints that are not part of the graph -/

section Outside

variable (hv : ∀ v, s'.variableAt? v = s.variableAt? v)
  (hc : ∀ k, k ≠ c → s'.constraintAt? k = s.constraintAt? k)
  (hbefore : ∀ {node}, s.constraintAt? c = some node → node.enabled = false)
  (hafter : ∀ {node}, s'.constraintAt? c = some node → node.enabled = false ∧
    node.enforcing = none ∧ ∀ v ∈ node.definition.vars, (s.variableAt? v).isSome)
include hv hc hbefore hafter

omit hv in
/-- What a constraint outside the graph does is determine nothing, before and afterwards. -/
theorem WellFormed.determines_outside (h : s.WellFormed) {v : VarId} :
    s'.Determines k v ↔ s.Determines k v := by
  by_cases hk : k = c
  · subst hk
    refine iff_of_false ?_ ?_
    · rintro ⟨node, hn, hout⟩
      exact not_determines hn (hafter hn).2.1 v ⟨node, hn, hout⟩
    · rintro ⟨node, hn, hout⟩
      obtain ⟨i, _, hi, _⟩ := Constraint.output?_eq_some_iff.1 hout
      have hen := (h.enforcing hn hi).1
      rw [hbefore hn] at hen
      cases hen
  · unfold Determines
    rw [hc k hk]

/-- The structure is a matter of the constraints that are part of the graph. -/
theorem WellFormed.of_outside (h : s.WellFormed) : s'.WellFormed := by
  refine ⟨⟨?_⟩, ?_, ?_, ?_⟩
  · intro k node hn v hmem
    rw [hv]
    by_cases hk : k = c
    · exact (hafter (hk ▸ hn)).2.2 v hmem
    · exact h.mentioned ((hc k hk).symm.trans hn) v hmem
  · intro v x hx k
    rw [hv] at hx
    rw [h.determines_outside hc hbefore hafter, h.determined hx]
  · intro k node i hn hi
    by_cases hk : k = c
    · rw [(hafter (hk ▸ hn)).2.1] at hi
      cases hi
    · exact h.enforcing ((hc k hk).symm.trans hn) hi
  · intro v x hx k
    rw [hv] at hx
    rw [h.incident hx]
    by_cases hk : k = c
    · -- a constraint that is not enabled is in no incidence set
      subst hk
      refine iff_of_false ?_ ?_
      · rintro ⟨node, hn, hen, _⟩
        rw [hbefore hn] at hen
        cases hen
      · rintro ⟨node, hn, hen, _⟩
        rw [(hafter hn).1] at hen
        cases hen
    · rw [hc k hk]

/-- A constraint that is not part of the graph has come, gone or been changed. -/
theorem Sound.of_outside (h : s.Sound cells) (hp : s'.passes = s.passes) : s'.Sound cells where
  toWellFormed := h.toWellFormed.of_outside hv hc hbefore hafter
  rest hlt := by
    have hrest := h.rest (hp ▸ hlt)
    have hreads : ∀ {k v w}, s'.Reads k v w → s.Reads k v w := by
      rintro k v w ⟨node, hn, hout, hrest⟩
      by_cases hk : k = c
      · subst hk
        exact absurd ⟨node, hn, hout⟩ (not_determines hn (hafter hn).2.1 w)
      · exact ⟨node, (hc k hk).symm.trans hn, hout, hrest⟩
    refine ⟨fun k => ?_, fun v x hx => hrest.released (hv v ▸ hx),
      hrest.acyclic.of_reads hreads, fun v x hx => ?_⟩
    · -- `c` itself has no method in force, and the others are as they were
      by_cases hk : k = c
      · refine settled_of_not_determines fun v hdet' => ?_
        obtain ⟨node, hn, hout⟩ := hdet'
        exact not_determines (hk ▸ hn) (hafter (hk ▸ hn)).2.1 v ⟨node, hk ▸ hn, hout⟩
      · refine (hrest.settled k).of_samePaint ?_ fun _ _ v _ => samePaint_of_eq (hv v)
        intro node hn
        exact ⟨node, (hc k hk).symm.trans hn, rfl, rfl⟩
    · rw [hp]
      exact hrest.stamped (hv v ▸ hx)

/-- A change of a constraint that is not part of the graph is done beside it. -/
theorem beside_of_outside (hp : s'.passes = s.passes) (hchanges : s'.changes = s.changes)
    (hfaults : s'.metrics.faults = s.metrics.faults) : s.Beside s' := by
  refine ⟨⟨fun {k node} hen => ?_, fun _ _ v _ => ?_, Nat.le_of_eq hp.symm, hchanges, hfaults⟩,
    fun _ _ v _ => (samePaint_of_eq (hv v)).2.2⟩
  · by_cases hk : k = c
    · -- neither before nor afterwards is the constraint enabled
      subst hk
      refine iff_of_false (fun hn => ?_) fun hn => ?_
      · rw [(hafter hn).1] at hen
        cases hen
      · rw [hbefore hn] at hen
        cases hen
    · rw [hc k hk]
  · obtain ⟨hwalk, hconstant, _⟩ := samePaint_of_eq (hv v)
    exact ⟨hwalk, hconstant⟩

end Outside

/-- Entering a sink into a constraint that is not part of the graph. -/
theorem Sound.enterSink (h : s.Sound cells) (hnode : s.constraintAt? c = some node)
    (hen : node.enabled = false) (henf : node.enforcing = none) (sink : VarId) :
    (s.modifyConstraint c fun x => { x with sink := some sink }).Sound cells ∧
      s.Beside (s.modifyConstraint c fun x => { x with sink := some sink }) := by
  have hother : ∀ k, k ≠ c → (s.modifyConstraint c fun x =>
      { x with sink := some sink }).constraintAt? k = s.constraintAt? k := by
    intro k hk
    rw [constraintAt?_modifyConstraint, if_neg hk]
  have hbefore : ∀ {n}, s.constraintAt? c = some n → n.enabled = false := by
    intro n hn
    obtain rfl := Option.some.inj (hnode.symm.trans hn)
    exact hen
  have hafter : ∀ {n}, (s.modifyConstraint c fun x =>
      { x with sink := some sink }).constraintAt? c = some n → n.enabled = false ∧
        n.enforcing = none ∧ ∀ v ∈ n.definition.vars, (s.variableAt? v).isSome := by
    intro n hn
    rw [constraintAt?_modifyConstraint, if_pos rfl, hnode] at hn
    obtain rfl := Option.some.inj hn
    have hlive := h.mentioned hnode
    exact ⟨hen, henf, hlive⟩
  exact ⟨h.of_outside (s := s) (fun _ => rfl) hother hbefore hafter rfl,
    beside_of_outside (s := s) (fun _ => rfl) hother hbefore hafter rfl rfl rfl⟩

/-- The constraint was forgotten, and nothing else was changed. -/
structure Erased (s s' : Solver W T) (c : ConstraintId) : Prop where
  /-- The constraints afterwards. -/
  constraintAt : ∀ k, s'.constraintAt? k = if k = c then none else s.constraintAt? k
  /-- The variables are the same. -/
  variableAt : ∀ v, s'.variableAt? v = s.variableAt? v
  /-- No pass was begun. -/
  passes : s'.passes = s.passes
  /-- No change of the set of enabled constraints was counted. -/
  changes : s'.changes = s.changes
  /-- Neither was a cycle or an unsatisfiable constraint. -/
  faults : s'.metrics.faults = s.metrics.faults

/-- Erasing a constraint from the arena changes nothing else. -/
theorem erased_eraseConstraint (c : ConstraintId) (s : Solver W T) :
    s.Erased { s with constraints := s.constraints.erase c } c :=
  ⟨Arena.get?_erase s.constraints c, fun _ => rfl, rfl, rfl, rfl⟩

section Erased

variable (he : s.Erased s' c) (hoff : ¬ s.Enabled c)
include he

/-- The other constraints are the same. -/
theorem Erased.constraintAt_ne (hk : k ≠ c) : s'.constraintAt? k = s.constraintAt? k := by
  rw [he.constraintAt, if_neg hk]

/-- The constraint is not found any more. -/
theorem Erased.gone : s'.constraintAt? c = none := by rw [he.constraintAt, if_pos rfl]

include hoff

omit he in
/-- A constraint that exists and is not part of the graph is not enabled. -/
theorem enabled_eq_false_of_not (hn : s.constraintAt? c = some node) : node.enabled = false := by
  by_contra hen
  exact hoff ⟨node, hn, by simpa using hen⟩

/-- The structure is kept when a constraint is forgotten that is not part of the graph. -/
theorem WellFormed.erased (h : s.WellFormed) : s'.WellFormed :=
  h.of_outside he.variableAt (fun _ => he.constraintAt_ne) (enabled_eq_false_of_not hoff)
    fun hn => by cases he.gone.symm.trans hn

/-- Forgetting a constraint that is not part of the graph leaves the graph sound. -/
theorem Sound.erased (h : s.Sound cells) : s'.Sound cells :=
  h.of_outside he.variableAt (fun _ => he.constraintAt_ne) (enabled_eq_false_of_not hoff)
    (fun hn => by cases he.gone.symm.trans hn) he.passes

/-- Forgetting a constraint that is not part of the graph is done beside it. -/
theorem Erased.beside : s.Beside s' :=
  beside_of_outside he.variableAt (fun _ => he.constraintAt_ne) (enabled_eq_false_of_not hoff)
    (fun hn => by cases he.gone.symm.trans hn) he.passes he.changes he.faults

/-- A constraint that is forgotten in this way determined nothing. -/
theorem Erased.determines_iff (h : s.WellFormed) {v : VarId} :
    s'.Determines k v ↔ s.Determines k v :=
  h.determines_outside (fun _ => he.constraintAt_ne) (enabled_eq_false_of_not hoff)
    fun hn => by cases he.gone.symm.trans hn

end Erased

/-! ## Entering the graph -/

/-- A constraint that enters the graph repaints nothing. -/
theorem Entered.samePaint (he : Entered s s' c node) (v : VarId) : SamePaint s s' v :=
  samePaint_of_map (he.variableAt v) fun x => by split <;> exact ⟨rfl, rfl, rfl⟩

/-- A constraint that enters the graph takes the condition from none. -/
theorem Renewable.entered {fine : Solver W T → Ledger T → ConstraintId → Prop} (hfine : Renewable fine)
    {l : Ledger T} (he : Entered s s' c node) (hk : fine s l k) : fine s' l k := by
  -- `c` has nothing in force, and no other constraint sees the difference
  by_cases hkc : k = c
  · subst hkc
    exact hfine.of_idle (not_determines he.reset.constraintAt_self rfl)
  · refine hfine.of_same hk ?_ (fun _ _ v _ => he.samePaint v) rfl
    intro n hn
    exact ⟨n, (he.reset.constraintAt_ne hkc).symm.trans hn, rfl, rfl⟩

/-- A variable has at most got one more incident constraint. -/
theorem Entered.carried (he : Entered s s' c node) : s.Carried s' := by
  intro v x' hx'
  rw [he.variableAt] at hx'
  obtain ⟨x, hx, rfl⟩ := Option.map_eq_some_iff.1 hx'
  refine ⟨x, hx, ?_⟩
  split <;> exact ⟨rfl, rfl, rfl, rfl⟩

/-- A constraint that enters the graph without a method in force changes nothing else. -/
theorem Sound.entered (h : s.Sound cells) (he : Entered s s' c node)
    (hp : s'.passes = s.passes) : s'.Sound cells where
  toWellFormed := h.toWellFormed.entered he
  rest hlt :=
    have hrest := h.rest (hp ▸ hlt)
    { settled := fun k =>
        (settled_renewable fun _ => cells).entered (l := fun _ => none) he (hrest.settled k)
      released := hrest.released.carried he.carried
      acyclic := hrest.acyclic.of_reads (he.reads_iff h.toWellFormed).1
      stamped := hrest.stamped.carried he.carried hp }

/-! ## Cells written from outside -/

/-- Only cells and work counters differ, and nothing that went wrong was counted. -/
structure Rewrites (s s' : Solver W T) : Prop where
  /-- The constraints are the same. -/
  constraintAt : ∀ c, s'.constraintAt? c = s.constraintAt? c
  /-- The variables are the same but for their cells. -/
  variableAt : ∀ v, ∃ cell, s'.variableAt? v = (s.variableAt? v).map fun x => { x with cell := cell }
  /-- No pass was begun. -/
  passes : s'.passes = s.passes
  /-- The set of enabled constraints was not changed. -/
  changes : s'.changes = s.changes
  /-- Neither a cycle nor an unsatisfiable constraint was counted. -/
  faults : s'.metrics.faults = s.metrics.faults

/-- Where only counters differ, no cell was written. -/
theorem Alike.rewrites (h : s.Alike s') (hfaults : s'.metrics.faults = s.metrics.faults) :
    s.Rewrites s' where
  constraintAt := h.constraintAt
  variableAt v := by
    rw [h.variableAt]
    cases s.variableAt? v with
    | none => exact ⟨.unassigned, rfl⟩
    | some x => exact ⟨x.cell, rfl⟩
  passes := h.passes
  changes := h.changes
  faults := hfaults

/-- Cells may be written one after the other. -/
theorem Rewrites.transitive : SolveM.Transitive (Rewrites (W := W) (T := T)) where
  refl _ := Alike.rewrites ⟨fun _ => rfl, fun _ => rfl, rfl, rfl⟩ rfl
  trans h h' :=
    { constraintAt := fun c => (h'.constraintAt c).trans (h.constraintAt c)
      variableAt := by
        intro v
        obtain ⟨cell, hcell⟩ := h.variableAt v
        obtain ⟨cell', hcell'⟩ := h'.variableAt v
        exact ⟨cell', by rw [hcell', hcell, Option.map_map]; rfl⟩
      passes := h'.passes.trans h.passes
      changes := h'.changes.trans h.changes
      faults := h'.faults.trans h.faults }

/-- Writing the cell of one variable. -/
theorem rewrites_modifyVariable (cell : Cell T) (v : VarId) (s : Solver W T) :
    s.Rewrites (s.modifyVariable v fun x => { x with cell := cell }) where
  constraintAt _ := rfl
  variableAt u := by
    rw [variableAt?_modifyVariable]
    by_cases hu : u = v
    · exact ⟨cell, by rw [if_pos hu, hu]⟩
    · rw [if_neg hu]
      exact (Rewrites.transitive.refl s).variableAt u
  passes := rfl
  changes := rfl
  faults := rfl

section Rewrites

variable (hr : s.Rewrites s')
include hr

/-- Writing cells leaves walk strengths and constancies. -/
theorem Rewrites.flags (v : VarId) :
    s'.walkAt v = s.walkAt v ∧ s'.constantAt v = s.constantAt v := by
  obtain ⟨cell, hcell⟩ := hr.variableAt v
  unfold walkAt constantAt
  rw [hcell, Option.map_map, Option.map_map]
  exact ⟨rfl, rfl⟩

/-- A variable has at most got another cell. -/
theorem Rewrites.carried : s.Carried s' := by
  intro v x' hx'
  obtain ⟨cell, hcell⟩ := hr.variableAt v
  rw [hcell] at hx'
  obtain ⟨x, hx, rfl⟩ := Option.map_eq_some_iff.1 hx'
  exact ⟨x, hx, rfl, rfl, rfl, rfl⟩

/-- Writing cells is done aside. -/
theorem Rewrites.aside : s.Aside s' :=
  aside_of_flags hr.constraintAt (fun _ v _ => hr.flags v) (Nat.le_of_eq hr.passes.symm) hr.changes
    hr.faults

/-- A constraint stays settled if the cells that are written are not those that its equation is
about. -/
theorem Rewrites.settled (hk : s.Settled cells k)
    (hcells : cells → ∀ node m, s.constraintAt? k = some node → node.enforcingMethod? = some m →
      s.constantAt m.output = true → ∀ v ∈ node.definition.vars, s'.cellAt v = s.cellAt v) :
    s'.Settled cells k := by
  intro node m hnode hm
  rw [hr.constraintAt] at hnode
  obtain ⟨hwalk, hconstant, hcell⟩ := hk hnode hm
  obtain ⟨i, _, hmethod⟩ := Option.bind_eq_some_iff.1 hm
  have hmem := Definition.mem_of_method? hmethod
  rw [(hr.flags _).1, (hr.flags _).2, Definition.walkFrom_congr fun v _ _ => (hr.flags v).1,
    Definition.constantFrom_congr fun v _ _ => (hr.flags v).2]
  -- the flags do not depend on cells; the cell equation is only about constant outputs
  refine ⟨hwalk, hconstant, fun hc hconst => ?_⟩
  have hsame := hcells hc node m hnode hm hconst
  rw [hsame _ (Definition.output_mem_vars hmem),
    valuesFrom_congr fun v hv => hsame v ((Definition.mem_inputs_iff hmem).1 hv).1]
  exact hcell hc hconst

/-- Writing cells keeps a graph sound, if the cells are not those that a constraint with a constant
output mentions or if the cells are not looked at. -/
theorem Sound.rewrites (h : s.Sound cells)
    (hcells : cells → s.passes < 2 ^ 64 → ∀ k node m, s.constraintAt? k = some node →
      node.enforcingMethod? = some m → s.constantAt m.output = true →
      ∀ v ∈ node.definition.vars, s'.cellAt v = s.cellAt v) : s'.Sound cells := by
  -- links are not cells
  refine ⟨h.toWellFormed.of_links hr.constraintAt fun v => ?_, fun hlt => ?_⟩
  · obtain ⟨cell, hcell⟩ := hr.variableAt v
    rw [hcell, Option.map_map]
    rfl
  · have hlt' : s.passes < 2 ^ 64 := hr.passes ▸ hlt
    have hrest := h.rest hlt'
    exact ⟨fun k => hr.settled (hrest.settled k) fun hc => hcells hc hlt' k,
      hrest.released.carried hr.carried, hrest.acyclic.of_reads (reads_congr hr.constraintAt).1,
      hrest.stamped.carried hr.carried hr.passes⟩

end Rewrites

/-- A constraint that gives a constant value to its output is not volatile, and its other variables
are constant. -/
theorem Settled.constant_of_constant (h : s.Settled cells k) {m : Method W T}
    (hnode : s.constraintAt? k = some node) (hm : node.enforcingMethod? = some m)
    (hconst : s.constantAt m.output = true) :
    node.definition.volatile = false ∧ ∀ v ∈ node.definition.vars, s.constantAt v = true := by
  obtain ⟨_, hconstant, _⟩ := h hnode hm
  rw [hconst, Definition.constantFrom, eq_comm, Bool.and_eq_true, List.all_eq_true] at hconstant
  refine ⟨by simpa using hconstant.1, fun v hv => ?_⟩
  by_cases ho : v = m.output
  · rw [ho, hconst]
  · exact hconstant.2 v (List.mem_filter.2 ⟨hv, by simpa using ho⟩)

end Solver

end DeltaBlue
