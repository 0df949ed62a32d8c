import DeltaBlue.Proofs.Runs

/-!
# What every call obeys

A relation that every step of every call obeys holds between the solver before a call and the solver
after it (`CallFrame`, `Call.run_obeys`). The steps are those of enabling and disabling, and besides
these the making and forgetting of variables and of constraints.

The first use is a law of declarations: a constraint with a sink mentions it. The sink is the output
of the observer's only method, a constraint keeps what it declares, and all other constraints have no
sink.
-/

namespace DeltaBlue

namespace SolveM

variable {W T : Type}

/-- A relation that every step of every call obeys. -/
structure CallFrame (ρ : Solver W T → Solver W T → Prop) : Prop extends PassFrame ρ where
  /-- A constraint is switched on, with no method in force. -/
  onEnter : ∀ c s, ρ s (s.modifyConstraint c fun x => { x with enabled := true, enforcing := none })
  /-- A constraint is switched off. -/
  onLeave : ∀ c s, ρ s (s.modifyConstraint c fun x => { x with enabled := false })
  /-- A change of the set of enabled constraints is counted. -/
  onChange : ∀ s, ρ s { s with changes := s.changes + 1 }
  /-- A variable is made. -/
  onMakeVariable : ∀ {s : Solver W T} {x v vars}, s.vars.insert x = .ok (v, vars) →
    ρ s { s with vars := vars }
  /-- A constraint is made, not enabled. -/
  onMakeConstraint : ∀ {s : Solver W T} {d c constraints},
    s.constraints.insert { definition := d } = .ok (c, constraints) →
    ρ s { s with constraints := constraints }
  /-- An observer is made, not enabled. -/
  onMakeObserver : ∀ sink inputs f, Obeys ρ (insertObserver sink inputs f)
  /-- A variable is forgotten. -/
  onForgetVariable : ∀ v s, ρ s { s with vars := s.vars.erase v }
  /-- A constraint is forgotten. -/
  onForgetConstraint : ∀ c s, ρ s { s with constraints := s.constraints.erase c }
  /-- The work counters are set to zero. -/
  onReset : ∀ s, ρ s { s with metrics := {} }

section

variable {ρ : Solver W T → Solver W T → Prop} (hρ : CallFrame ρ)
include hρ

/-- What every call obeys is obeyed by enabling and disabling any constraint. -/
theorem CallFrame.enterFrame (c : ConstraintId) : EnterFrame c ρ :=
  { hρ with onEnter := hρ.onEnter c, onLeave := hρ.onLeave c }

/-! ## Variables -/

/-- A variable is made, or the arena is full and nothing changes. -/
theorem CallFrame.storeVariable (x : Variable T) : Obeys ρ (storeVariable x) := by
  intro m
  unfold SolveM.storeVariable
  rw [ensures_bind, ensures_query]
  cases hins : m.solver.vars.insert x with
  | error e => exact hρ.refl _
  | ok p =>
    simp only [Except.mapError, ensures_bind, ensures_update, ensures_pure]
    exact hρ.onMakeVariable hins

/-- The variables of a list are made one after the other. -/
theorem CallFrame.newVariables (values : List T) : Obeys ρ (newVariables values) := by
  have hT := hρ.toTransitive
  induction values with
  | nil => exact .pure hT _
  | cons value values ih =>
    exact .bind hT (hρ.storeVariable _) fun _ => .bind hT ih fun _ => .pure hT _

/-- A named variable is made if there is none of this name. -/
theorem CallFrame.named (name : String) : Obeys ρ (named name) := by
  have hT := hρ.toTransitive
  refine .bind hT (.ask hT _) fun found => ?_
  split
  · exact .pure hT _
  · exact hρ.storeVariable _

/-- A variable that constraints mention is not forgotten. -/
theorem CallFrame.removeVariable (v : VarId) : Obeys ρ (removeVariable v) := by
  have hT := hρ.toTransitive
  refine .bind hT (.getVariable hT v) fun _ => .bind hT (.ask hT _) fun cs => ?_
  split
  · exact .update (hρ.onForgetVariable v)
  · exact .throw hT _

/-! ## Constraints -/

/-- A constraint is made, or the arena is full and nothing changes. -/
theorem CallFrame.storeConstraint (d : Definition W T) :
    Obeys ρ (storeConstraint { definition := d }) := by
  intro m
  unfold SolveM.storeConstraint
  rw [ensures_bind, ensures_query]
  cases hins : m.solver.constraints.insert { definition := d } with
  | error e => exact hρ.refl _
  | ok p =>
    simp only [Except.mapError, ensures_bind, ensures_update, ensures_pure]
    exact hρ.onMakeConstraint hins

/-- The variables are looked up before a constraint is made. -/
theorem CallFrame.insert (d : Definition W T) : Obeys ρ (insert d) := by
  have hT := hρ.toTransitive
  refine .bind hT (.forM hT fun v => ?_) fun _ => hρ.storeConstraint d
  exact .bind hT (.getVariable hT v) fun _ => .pure hT _

/-- A copy is made as any other constraint is. -/
theorem CallFrame.substitute (c : ConstraintId) (f : VarId → VarId) : Obeys ρ (substitute c f) := by
  have hT := hρ.toTransitive
  exact .bind hT (.getConstraint hT c) fun _ => .bind hT (.query hT _) fun d => hρ.insert d

/-- A constraint is forgotten before its sink. -/
theorem CallFrame.discard (c : ConstraintId) : Obeys ρ (discard c) := by
  refine .update fun s => ?_
  cases (s.constraintAt? c).bind Constraint.sink with
  | none => exact hρ.onForgetConstraint c s
  | some sink => exact hρ.trans (hρ.onForgetConstraint c s) (hρ.onForgetVariable sink _)

/-- A constraint is disabled and then forgotten. -/
theorem CallFrame.removeConstraint (fuel : Nat) (c : ConstraintId) :
    Obeys ρ (removeConstraint fuel c) :=
  removeConstraint_obeys (hρ.enterFrame c).toLeaveFrame (hρ.discard c) fuel

/-- A constraint that cannot be enabled is forgotten. -/
theorem CallFrame.enableOrRemove (fuel : Nat) (c : ConstraintId) :
    Obeys ρ (enableOrRemove fuel c) := by
  have hT := hρ.toTransitive
  refine .bind hT (.attempt (enable_obeys (hρ.enterFrame c) fuel)) fun result => ?_
  cases result with
  | ok _ => exact .pure hT _
  | error e =>
    refine .bind hT (.attempt (hρ.removeConstraint fuel c)) fun cleanup => ?_
    -- a failure of the cleanup is noted, and the first one comes out
    cases cleanup with
    | ok _ => exact .throw hT _
    | error _ => exact .bind hT (.note hT _) fun _ => .throw hT _

/-- A constraint is made and enabled. -/
theorem CallFrame.constrain (fuel : Nat) (d : Definition W T) : Obeys ρ (constrain fuel d) :=
  .bind hρ.toTransitive (hρ.insert d) fun c => hρ.enableOrRemove fuel c

/-- An observer is made with a sink of its own, which is forgotten if the observer cannot be
made. -/
theorem CallFrame.observe (fuel : Nat) (inputs : List VarId) (f : Observe W T) :
    Obeys ρ (observe fuel inputs f) := by
  have hT := hρ.toTransitive
  refine .bind hT (hρ.storeVariable _) fun sink => ?_
  refine .bind hT (.attempt (hρ.onMakeObserver sink inputs f)) fun result => ?_
  cases result with
  | ok c => exact hρ.enableOrRemove fuel c
  | error e => exact .bind hT (.update (hρ.onForgetVariable sink)) fun _ => .throw hT _

/-- A value is stored directly, or through a constraint that is made for it and forgotten. -/
theorem CallFrame.write (fuel : Nat) (v : VarId) (value : T) : Obeys ρ (write fuel v value) := by
  have hT := hρ.toTransitive
  refine .bind hT (.getVariable hT v) fun x => .bind hT (.ask hT _) fun direct => ?_
  split
  · refine .bind hT (.changeVariable hT (hρ.onVariable _ v)) fun _ => ?_
    exact .bind hT (hρ.count (by intro; rfl)) fun _ => .note hT _
  · -- the constraint is switched on and off before it is forgotten
    rw [writeThrough_eq]
    refine .bind hT (.ask hT _) fun strength => .bind hT (hρ.storeConstraint _) fun c => ?_
    exact pulse_obeys (hρ.enterFrame c) (hρ.onForgetConstraint c) fuel v

/-! ## Plans and groups -/

/-- Building a schedule marks variables. -/
theorem CallFrame.schedule (mark : Mark) (fuel : Nat) (hot : OrderedSet ConstraintId) :
    Obeys ρ (schedule mark fuel hot) := by
  have hT := hρ.toTransitive
  induction fuel generalizing hot with
  | zero => exact .unfinished
  | succ fuel ih =>
    unfold SolveM.schedule
    split
    · exact .pure hT _
    · refine .bind hT (.query hT _) fun ready => ?_
      split
      · exact ih _
      · refine .bind hT (hρ.changeVariable _ _) fun _ => .bind hT (.getVariable hT _) fun x => ?_
        exact .bind hT (.ask hT _) fun _ => .bind hT (ih _) fun _ => .pure hT _

/-- A plan takes a new mark, and is built by scheduling. -/
theorem CallFrame.plan (fuel : Nat) (seeds : List Handle) : Obeys ρ (plan fuel seeds) := by
  have hT := hρ.toTransitive
  refine .bind hT (.query hT _) fun hot => .bind hT (nextMark_obeys hρ.toPassFrame) fun mark => ?_
  refine .bind hT (hρ.schedule mark fuel hot) fun steps => ?_
  refine .bind hT (hρ.count (by intro; rfl)) fun _ => .bind hT (.ask hT _) fun _ => ?_
  exact .bind hT (.note hT _) fun _ => .pure hT _

/-- Executing a plan changes the outputs of its steps. -/
theorem CallFrame.executePlan (p : Plan) : Obeys ρ (executePlan p) := by
  have hT := hρ.toTransitive
  refine .bind hT (.ask hT _) fun current => ?_
  split
  · exact .bind hT (.throw hT _) fun _ => .bind hT (.forM hT fun step =>
      execute_obeys hρ.toWalkFrame _ _) fun _ => hρ.count (by intro; rfl)
  · exact .bind hT (.forM hT fun step => execute_obeys hρ.toWalkFrame _ _) fun _ =>
      hρ.count (by intro; rfl)

/-- The members of a group are enabled one after the other. -/
theorem CallFrame.enableMembers (fuel : Nat) (cs done : List ConstraintId) :
    Obeys ρ (enableMembers fuel cs done) :=
  enableMembers_obeys hρ.enterFrame fuel cs done hρ.toTransitive

/-- The members of a group are disabled one after the other, whatever fails. -/
theorem CallFrame.disableMembers (fuel : Nat) (cs : List ConstraintId)
    (failure : Option SolveError) : Obeys ρ (disableMembers fuel cs failure) := by
  have hT := hρ.toTransitive
  induction cs generalizing failure with
  | nil =>
    cases failure with
    | none => exact .pure hT _
    | some e => exact .throw hT _
  | cons c cs ih =>
    refine .bind hT (.attempt (disable_obeys (hρ.enterFrame c).toLeaveFrame fuel)) fun r => ?_
    cases r with
    | ok _ => exact ih _
    | error e => exact ih _

/-- A script makes variables and constraints. -/
theorem CallFrame.buildGroup (script : GroupScript W T) : Obeys ρ (buildGroup script) := by
  have hT := hρ.toTransitive
  -- by induction on the script; groups may stand in groups
  induction script with
  | done => exact .pure hT _
  | add c rest ih => exact .bind hT (.getConstraint hT c) fun _ => .bind hT ih fun _ => .pure hT _
  | newVariable value rest ih =>
    exact .bind hT (hρ.storeVariable _) fun _ => .bind hT ih fun _ => .pure hT _
  | declare strength parts rest ih =>
    refine .bind hT (.query hT fun _ => (Draft.define strength parts).mapError .build) fun d => ?_
    exact .bind hT (hρ.insert d) fun _ => .bind hT ih fun _ => .pure hT _
  | group inner rest ihi ihr =>
    exact .bind hT ihi fun _ => .bind hT ihr fun _ => .pure hT _

/-- The solvers before and after a call stand in every relation that the steps of calls obey. -/
theorem CallFrame.run (call : Call W T) (fuel : Nat) : Obeys ρ (call.run fuel) := by
  have hT := hρ.toTransitive
  have hanswer : ∀ {α : Type} {op : SolveM W T α} {f : α → Answer W T}, Obeys ρ op →
      Obeys ρ (do return f (← op)) := fun hop => .bind hT hop fun _ => .pure hT _
  cases call with
  | query q => exact .query hT q.answer
  | newVariable value => exact hanswer (hρ.storeVariable _)
  | newUnassigned => exact hanswer (hρ.storeVariable _)
  | newVariables values => exact hanswer (hρ.newVariables values)
  | named name => exact hanswer (hρ.named name)
  | write v value => exact hanswer (f := fun _ => .done) (hρ.write fuel v value)
  | removeVariable v => exact hanswer (f := fun _ => .done) (hρ.removeVariable v)
  | insert d => exact hanswer (hρ.insert d)
  | constrain d => exact hanswer (hρ.constrain fuel d)
  | stay v strength => exact hanswer (hρ.constrain fuel _)
  | edit v value strength => exact hanswer (hρ.constrain fuel _)
  | observe inputs f => exact hanswer (hρ.observe fuel inputs f)
  | substitute c f => exact hanswer (hρ.substitute c f)
  | enable c => exact hanswer (f := fun _ => .done) (enable_obeys (hρ.enterFrame c) fuel)
  | disable c =>
    exact hanswer (f := fun _ => .done) (disable_obeys (hρ.enterFrame c).toLeaveFrame fuel)
  | removeConstraint c => exact hanswer (f := fun _ => .done) (hρ.removeConstraint fuel c)
  | plan seeds => exact hanswer (hρ.plan fuel seeds)
  | executePlan p => exact hanswer (f := fun _ => .done) (hρ.executePlan p)
  | recompute seed =>
    exact hanswer (f := fun _ => .done) (.bind hT (hρ.plan fuel [seed]) fun p => hρ.executePlan p)
  | enableGroup g =>
    exact hanswer (f := fun _ => .done) (.bind hT (.note hT _) fun _ => hρ.enableMembers fuel _ _)
  | disableGroup g =>
    exact hanswer (f := fun _ => .done) (.bind hT (.note hT _) fun _ => hρ.disableMembers fuel _ _)
  | buildGroup script => exact hanswer (f := fun p => .built p.1 p.2) (hρ.buildGroup script)
  | resetMetrics => exact hanswer (f := fun _ => .done) (.update hρ.onReset)

end

end SolveM

/-! ## Sinks -/

namespace Solver

variable {W T : Type} {s s' : Solver W T}

/-- A constraint with a sink mentions it. -/
def SinksMentioned (s : Solver W T) : Prop :=
  ∀ c node, s.constraintAt? c = some node → ∀ v, node.sink = some v → v ∈ node.definition.vars

/-- If sinks are mentioned before, they are mentioned afterwards. -/
def KeepsSinks (s s' : Solver W T) : Prop := s.SinksMentioned → s'.SinksMentioned

/-- What two operations keep, they keep one after the other. -/
theorem KeepsSinks.transitive : SolveM.Transitive (KeepsSinks (W := W) (T := T)) where
  refl _ := id
  trans h h' hs := h' (h hs)

/-- Constraints that are declared as before keep their sinks, and of the others each mentions its
own. -/
theorem keepsSinks_of_declared (h : ∀ c node', s'.constraintAt? c = some node' →
    (∃ node, s.constraintAt? c = some node ∧ node'.declared = node.declared) ∨
      ∀ v, node'.sink = some v → v ∈ node'.definition.vars) : s.KeepsSinks s' := by
  intro hs c node' hnode' v hv
  rcases h c node' hnode' with ⟨node, hnode, he⟩ | hown
  · obtain ⟨hd, hsink⟩ := Prod.mk.inj he
    rw [hd]
    exact hs c node hnode v (hsink ▸ hv)
  · exact hown v hv

/-- A constraint that exists afterwards existed before and declared the same. -/
theorem Redeclares.exists_before (h : s.Redeclares s') {c : ConstraintId} {node' : Constraint W T}
    (hnode' : s'.constraintAt? c = some node') :
    ∃ node, s.constraintAt? c = some node ∧ node'.declared = node.declared := by
  have hc := h c
  rw [hnode', Option.map_some] at hc
  obtain ⟨node, hnode, he⟩ := Option.map_eq_some_iff.1 hc.symm
  exact ⟨node, hnode, he.symm⟩

/-- What changes no declaration keeps the sinks mentioned. -/
theorem Redeclares.keepsSinks (h : s.Redeclares s') : s.KeepsSinks s' :=
  keepsSinks_of_declared fun _ _ hnode' => .inl (h.exists_before hnode')

/-- Forgetting a constraint keeps the sinks of the others mentioned. -/
theorem keepsSinks_eraseConstraint (c : ConstraintId) (s : Solver W T) :
    s.KeepsSinks { s with constraints := s.constraints.erase c } := by
  refine keepsSinks_of_declared fun k node hnode => .inl ?_
  rw [constraintAt?, Arena.get?_erase] at hnode
  by_cases hk : k = c
  · rw [if_pos hk] at hnode
    cases hnode
  · rw [if_neg hk] at hnode
    exact ⟨node, hnode, rfl⟩

/-- A constraint that is made mentions its sink, if it has one. -/
theorem keepsSinks_insertConstraint {c : ConstraintId} {node : Constraint W T}
    {constraints : Arena .constraint (Constraint W T)}
    (hins : s.constraints.insert node = .ok (c, constraints))
    (hnode : ∀ v, node.sink = some v → v ∈ node.definition.vars) :
    s.KeepsSinks { s with constraints := constraints } := by
  obtain ⟨_, hconstraints⟩ := Arena.get?_of_insert hins
  refine keepsSinks_of_declared fun k n hn => ?_
  rw [constraintAt?, hconstraints] at hn
  by_cases hk : k = c
  · rw [if_pos hk] at hn
    obtain rfl := Option.some.inj hn
    exact .inr hnode
  · rw [if_neg hk] at hn
    exact .inl ⟨n, hn, rfl⟩

end Solver

namespace SolveM

open Solver (KeepsSinks)

variable {W T : Type}

/-- The sink of an observer that is made is the output of its method. -/
theorem insertObserver_keepsSinks (sink : VarId) (inputs : List VarId) (f : Observe W T) :
    Obeys KeepsSinks (insertObserver sink inputs f) := by
  intro m
  refine (ensures_insertObserver_stored sink inputs f).mono ?_
  rintro r m' ⟨_, hstored⟩
  refine Solver.keepsSinks_of_declared fun k node hnode => ?_
  cases r with
  | error e => exact .inl ⟨node, (hstored k).symm.trans hnode, rfl⟩
  | ok c =>
    obtain ⟨d, hdefine, _, hstored⟩ := hstored
    rw [hstored] at hnode
    by_cases hk : k = c
    · rw [if_pos hk] at hnode
      obtain rfl := Option.some.inj hnode
      refine .inr ?_
      rintro _ ⟨⟩
      exact Draft.mem_vars_of_define_observer hdefine
    · rw [if_neg hk] at hnode
      exact .inl ⟨node, hnode, rfl⟩

/-- Every step of every call keeps sinks mentioned. -/
theorem keepsSinks_frame : CallFrame (W := W) (T := T) KeepsSinks where
  -- propagation changes no declaration
  toPassFrame := propagates_frame.mono KeepsSinks.transitive fun h =>
    Solver.Redeclares.keepsSinks h.declared
  onEnter c s := ((redeclares_frame c).onEnter s).keepsSinks
  onLeave c s := ((redeclares_frame c).onLeave s).keepsSinks
  onChange _ := id
  onMakeVariable _ := id
  onMakeConstraint hins := Solver.keepsSinks_insertConstraint hins nofun
  onMakeObserver := insertObserver_keepsSinks
  onForgetVariable _ _ := id
  onForgetConstraint := Solver.keepsSinks_eraseConstraint
  onReset _ := id

end SolveM

/-- After every call a constraint with a sink mentions it. -/
theorem Run.sinksMentioned {W T : Type} {own : Prop} {config : Config} {plans : List (Plan × Nat)}
    {m : Machine W T} (h : Run own config plans m) : m.solver.SinksMentioned := by
  induction h with
  | start w => exact fun c node hnode => by simp at hnode
  | outside w _ ih => exact ih
  | @call plans m m' r fuel call _ _ hrun ih =>
    exact SolveM.keepsSinks_frame.run call fuel m r m' hrun ih

/-! ## Definitions -/

namespace Solver

variable {W T : Type} {s s' : Solver W T} {P : Definition W T → Prop}

/-- Every constraint has a definition with the property `P`. -/
def AllDefined (P : Definition W T → Prop) (s : Solver W T) : Prop :=
  ∀ c node, s.constraintAt? c = some node → P node.definition

/-- What changes no declaration leaves the definitions as they are. -/
theorem AllDefined.redeclares (h : s.AllDefined P) (hr : s.Redeclares s') : s'.AllDefined P := by
  intro c node' hnode'
  obtain ⟨node, hnode, he⟩ := hr.exists_before hnode'
  rw [(Prod.mk.inj he).1]
  exact h c node hnode

/-- The constraints that are left when one is forgotten are defined as before. -/
theorem AllDefined.forgets {c : ConstraintId} (h : s.AllDefined P) (hf : s.Forgets s' c) :
    s'.AllDefined P := by
  intro k node' hnode'
  have hk := hf.declared k
  rw [hnode', Option.map_some] at hk
  split at hk
  · cases hk
  · obtain ⟨node, hnode, he⟩ := Option.map_eq_some_iff.1 hk.symm
    rw [← (Prod.mk.inj he).1]
    exact h k node hnode

/-- A constraint that is stored is defined as it was declared. -/
theorem AllDefined.stored {node : Constraint W T} {r : Except SolveError ConstraintId}
    (h : s.AllDefined P) (hstored : s.Stored s' node r) (hnode : P node.definition) :
    s'.AllDefined P := by
  intro k node' hnode'
  cases r with
  | error e => exact h k node' ((hstored k).symm.trans hnode')
  | ok c =>
    rw [hstored.2] at hnode'
    split at hnode'
    · obtain rfl := Option.some.inj hnode'
      exact hnode
    · exact h k node' hnode'

end Solver

namespace SolveM

variable {W T : Type} {m : Machine W T} {P : Definition W T → Prop}

/-- Variables are made beside the constraints. -/
theorem ensures_newVariables_constraintAt (values : List T) :
    Ensures (newVariables values) m fun _ m' =>
      ∀ c, m'.solver.constraintAt? c = m.solver.constraintAt? c := by
  induction values generalizing m with
  | nil => exact (ensures_pure _).2 fun _ => rfl
  | cons value values ih =>
    unfold newVariables newVariable
    rw [ensures_bind]
    refine (ensures_storeVariable_made _).mono ?_
    rintro r m₁ ⟨_, h₁⟩
    cases r with
    | error e => exact h₁
    | ok v =>
      simp only [ensures_bind]
      refine ih.mono fun r m₂ h₂ => ?_
      cases r with
      | error e => exact fun c => (h₂ c).trans (h₁ c)
      | ok vs => exact (ensures_pure _).2 fun c => (h₂ c).trans (h₁ c)

/-- A constraint that cannot be enabled is forgotten. If it is enabled, no declaration changes. -/
theorem ensures_enableOrRemove_declared (fuel : Nat) (c : ConstraintId) :
    Ensures (enableOrRemove fuel c) m fun r m' =>
      match r with
      | .ok _ => m.solver.Redeclares m'.solver
      | .error _ => m.solver.Forgets m'.solver c := by
  unfold enableOrRemove
  rw [ensures_bind, ensures_attempt]
  refine (enable_obeys (stands_frame c) fuel m).mono fun r m₁ hs => ?_
  cases r with
  | ok _ => exact (ensures_pure _).2 hs.declared
  | error e =>
    simp only [ensures_bind, ensures_attempt]
    refine (ensures_removeConstraint_forgets fuel c).mono fun cleanup m₂ hf => ?_
    cases cleanup with
    | ok _ => exact (ensures_throw _).2 (hs.forgets hf)
    | error _ =>
      simp only [ensures_bind, ensures_note]
      exact (ensures_throw _).2 (hs.forgets hf)

/-- A constraint that is made and enabled brings no definition but its own, whether or not it can be
enabled. -/
theorem ensures_constrain_allDefined (fuel : Nat) {d : Definition W T} (hd : P d)
    (h : m.solver.AllDefined P) :
    Ensures (constrain fuel d) m fun _ m' => m'.solver.AllDefined P := by
  unfold constrain
  rw [ensures_bind]
  refine (ensures_insert_stored d).mono ?_
  rintro r m₁ ⟨hstored, _⟩
  have h₁ := h.stored hstored hd
  cases r with
  | error e => exact h₁
  | ok c =>
    refine (ensures_enableOrRemove_declared fuel c).mono fun r m₂ hdeclared => ?_
    cases r with
    | ok _ => exact h₁.redeclares hdeclared
    | error _ => exact h₁.forgets hdeclared

end SolveM

/-- Where variables are made and constraints of some kind, all constraints are of this kind. -/
theorem Call.allDefined_of_runAll {W T : Type} {P : Definition W T → Prop} {fuel : Nat}
    {calls : List (Call W T)} {m m' : Machine W T}
    (hcalls : ∀ call ∈ calls, (∃ values, call = newVariables values) ∨ ∃ d, call = constrain d ∧ P d)
    (h : m.solver.AllDefined P) (hrun : runAll fuel calls m = some m') : m'.solver.AllDefined P := by
  -- by induction on the calls; each makes variables or one constraint of this kind
  induction calls generalizing m with
  | nil => exact Option.some.inj hrun ▸ h
  | cons call calls ih =>
    obtain ⟨⟨r, m₁⟩, hcall, hrest⟩ := Option.bind_eq_some_iff.1 hrun
    refine ih (fun call hmem => hcalls call (.tail _ hmem)) ?_ hrest
    rcases hcalls call (.head _) with ⟨values, rfl⟩ | ⟨d, rfl, hd⟩
    · have hsame := ensures_answer (SolveM.ensures_newVariables_constraintAt values) r m₁ hcall
      exact fun c node hnode => h c node ((hsame c).symm.trans hnode)
    · exact ensures_answer (SolveM.ensures_constrain_allDefined fuel hd h) r m₁ hcall

end DeltaBlue
