import DeltaBlue.Proofs.Moves

/-!
# Every call is a sequence of moves

Every call but the resetting of the counters proceeds by moves, as long as it is `Call.Careful`: an
observer is removed only if no other constraint mentions its sink, and, if the cells are looked at, a
plan is executed at the generation at which it was built only if its steps are good. The plans that
the solver builds have good steps.

Constraints are enabled when a call asks for it, for the constraints that `constrain` and its kin
store first, for the constraint that a value is written through, and one after the other for the
members of a group. `Call.EnablesWhere P` says that `P` holds at every such moment.
-/

namespace DeltaBlue

namespace SolveM

open Solver (Sound Beside Redeclares)

variable {W T α : Type} {cells : Prop} {P : Solver W T → ConstraintId → Prop} {fuel : Nat}

/-! ## Variables -/

/-- An untouched variable is stored beside the graph. -/
theorem storeVariable_proceeds {x : Variable T} (hx : Solver.Untouched x) :
    Proceeds cells P fuel (storeVariable x) :=
  fun m h => ((ensures_storeVariable hx h).and (storeVariable_abstains x m)).mono
    fun _ _ ⟨⟨⟨h', hbeside⟩, _⟩, hdeeds⟩ => .beside h.toWellFormed hbeside hdeeds h'

/-- A variable with a value is made beside the graph. -/
theorem newVariable_proceeds (value : T) : Proceeds cells P fuel (newVariable value) :=
  storeVariable_proceeds ⟨rfl, rfl, rfl, rfl, rfl⟩

/-- A variable without a value is made beside the graph. -/
theorem newUnassigned_proceeds : Proceeds cells P fuel newUnassigned :=
  storeVariable_proceeds ⟨rfl, rfl, rfl, rfl, rfl⟩

/-- The variables of a list are made one after the other. -/
theorem newVariables_proceeds (values : List T) : Proceeds cells P fuel (newVariables values) := by
  induction values with
  | nil => exact .pure _
  | cons value rest ih =>
    exact .bind (newVariable_proceeds value) fun _ => .bind ih fun _ => .pure _

/-- A named variable is found, or made. -/
theorem named_proceeds (name : String) : Proceeds cells P fuel (named name) := by
  refine .bind (.ask _) fun found => ?_
  cases found with
  | none => exact storeVariable_proceeds ⟨rfl, rfl, rfl, rfl, rfl⟩
  | some p => exact .pure _

/-- A variable that no constraint mentions is forgotten, and any other is kept. -/
theorem removeVariable_proceeds (v : VarId) : Proceeds cells P fuel (removeVariable v) := by
  refine .bind (.getVariable v) fun _ m h => ?_
  unfold users
  rw [ensures_bind, ensures_ask]
  cases husers : (m.solver.constraints.toList.filter
      (·.2.definition.vars.contains v)).map (·.1) with
  | nil =>
    simp only
    have hun : m.solver.Unmentioned v := by
      -- no users: no constraint mentions the variable
      intro c node hnode hmem
      rw [List.map_eq_nil_iff, List.filter_eq_nil_iff] at husers
      refine husers (c, node) (Arena.mem_toList.2 hnode) ?_
      rw [List.contains_iff_mem]
      exact hmem
    exact ((ensures_eraseVariable h hun).and (Abstains.update _ m)).mono
      fun _ _ ⟨⟨h', hbeside⟩, hdeeds⟩ => .beside h.toWellFormed hbeside hdeeds h'
  | cons c cs =>
    simp only
    exact Proceeds.throw _ m h

/-! ## Constraints -/

/-- Looking variables up changes nothing, and succeeds if all of them exist. -/
theorem ensures_lookups {m : Machine W T} (vs : List VarId) :
    Ensures (vs.forM fun v => do let _ ← getVariable v) m fun r m' =>
      m' = m ∧ (r = .ok ⟨⟩ ↔ ∀ v ∈ vs, (m.solver.variableAt? v).isSome) := by
  induction vs with
  | nil => exact (ensures_pure _).2 ⟨rfl, iff_of_true rfl fun v hv => absurd hv List.not_mem_nil⟩
  | cons v vs ih =>
    change Ensures ((do let _ ← getVariable v) >>= fun _ => vs.forM fun v => do
      let _ ← getVariable v) m _
    simp only [ensures_bind, ensures_getVariable, List.forall_mem_cons]
    cases hx : m.solver.variableAt? v with
    | none =>
      rw [Solver.lookupVariable, hx]
      exact ⟨trivial, iff_of_false (fun h => by cases h) fun h => by cases h.1⟩
    | some x =>
      rw [Solver.lookupVariable_eq_ok hx]
      simp only [ensures_pure]
      exact ih.mono fun r m' h => ⟨h.1, h.2.trans (and_iff_right rfl).symm⟩

/-- A constraint that is inserted is one that did not exist, and is not part of the graph. -/
theorem ensures_insert {m : Machine W T} {d : Definition W T} (h : m.solver.Sound cells) :
    Ensures (insert d) m fun r m' => (m'.solver.Sound cells ∧ m.solver.Beside m'.solver) ∧
      m.solver.Stored m'.solver { definition := d } r := by
  unfold insert
  rw [ensures_bind]
  refine (ensures_lookups d.vars).mono ?_
  rintro r m' ⟨rfl, hall⟩
  cases r with
  | error e => exact ⟨⟨h, Beside.transitive.refl _⟩, fun _ => rfl⟩
  | ok _ => exact ensures_storeConstraint rfl rfl (hall.1 rfl) h

/-- A constraint is inserted beside the graph. -/
theorem insert_proceeds (d : Definition W T) : Proceeds cells P fuel (insert d) :=
  fun m h => ((ensures_insert h).and (insert_abstains d m)).mono
    fun _ _ ⟨⟨⟨h', hbeside⟩, _⟩, hdeeds⟩ => .beside h.toWellFormed hbeside hdeeds h'

/-- Removing a constraint: it is disabled, and discarded aside, which is in order if no other
constraint mentions its sink. -/
theorem ensures_removeConstraint {m : Machine W T} {c : ConstraintId} (h : m.solver.Sound cells)
    (hsink : m.solver.OwnsSink c) :
    Ensures (removeConstraint fuel c) m fun _ m' => Moves cells P fuel m m' := by
  refine Ensures.moves_bind (Q := fun _ m' => m = m') h ?_ ?_
  · rw [ensures_getConstraint]
    exact ⟨.refl, rfl⟩
  rintro node _ - rfl
  refine Ensures.moves_bind (Q := fun _ m' => m.solver.Redeclares m'.solver ∧
    ¬ m'.solver.Enabled c) h ?_ ?_
  · rw [ensures_attempt]
    exact (ensures_move_disable c).and (ensures_disable fuel c)
  · -- whether disabling has succeeded or not, the constraint is out of the graph
    rintro result m₁ h₁ ⟨hr, hoff⟩
    refine Ensures.moves_bind (Q := fun _ _ => True) h₁ ?_ fun _ m₂ h₂ _ => ?_
    · refine ((ensures_discard h₁ hoff (hsink.redeclares hr)).and (Abstains.update _ m₁)).mono ?_
      rintro r m₂ ⟨⟨h₂, hbeside⟩, hdeeds⟩
      exact ⟨.beside h₁.toWellFormed hbeside hdeeds h₂, trivial⟩
    · exact Proceeds.bind (.note rfl) (fun _ => .query fun _ => result) m₂ h₂

/-- Enabling a constraint or removing it. -/
theorem ensures_enableOrRemove {m : Machine W T} {c : ConstraintId} (h : m.solver.Sound cells)
    (hsink : m.solver.OwnsSink c) (hP : P m.solver c) :
    Ensures (enableOrRemove fuel c) m fun _ m' => Moves cells P fuel m m' := by
  refine Ensures.moves_bind (Q := fun _ m' => m.solver.Redeclares m'.solver) h ?_ ?_
  · rw [ensures_attempt]
    exact (ensures_move_enable hP).and (enable_redeclares fuel c m)
  · rintro result m₁ h₁ hr
    cases result with
    | ok _ => exact Proceeds.pure c m₁ h₁
    | error e =>
      refine Ensures.moves_bind (Q := fun _ _ => True) h₁ ?_ fun cleanup m₂ h₂ _ => ?_
      · rw [ensures_attempt]
        exact (ensures_removeConstraint h₁ (hsink.redeclares hr)).mono
          fun _ _ hmoves => ⟨hmoves, trivial⟩
      · cases cleanup with
        | ok _ => exact Proceeds.throw e m₂ h₂
        | error _ => exact Proceeds.bind (.note rfl) (fun _ => .throw e) m₂ h₂

/-- Storing and enabling a constraint, if the condition holds once it is stored. -/
theorem ensures_constrain {m : Machine W T} {d : Definition W T} (h : m.solver.Sound cells)
    (hP : Ensures (insert d) m fun r m' => ∀ c, r = .ok c → P m'.solver c) :
    Ensures (constrain fuel d) m fun _ m' => Moves cells P fuel m m' := by
  refine Ensures.moves_bind (Q := fun r m' => m.solver.Stored m'.solver { definition := d } r ∧
    ∀ c, r = .ok c → P m'.solver c) h ?_ ?_
  · refine (((ensures_insert h).and (insert_abstains d m)).and hP).mono ?_
    rintro r m₁ ⟨⟨⟨⟨h₁, hbeside⟩, hstored⟩, hdeeds⟩, hP₁⟩
    exact ⟨.beside h.toWellFormed hbeside hdeeds h₁, hstored, hP₁⟩
  · rintro c m₁ h₁ ⟨⟨_, hstored⟩, hP₁⟩
    refine ensures_enableOrRemove h₁ ?_ (hP₁ c rfl)
    -- a constraint that was just inserted has no sink
    intro node sink hnode hsink
    rw [hstored, if_pos rfl] at hnode
    obtain rfl := Option.some.inj hnode
    cases hsink

/-- A copy of a constraint is inserted beside the graph. -/
theorem substitute_proceeds (c : ConstraintId) (f : VarId → VarId) :
    Proceeds cells P fuel (substitute c f) :=
  .bind (.getConstraint c) fun _ => .bind (.query _) fun d => insert_proceeds d

/-- Storing an observer is done aside. -/
theorem ensures_insertObserver_aside {m : Machine W T} {sink : VarId} {inputs : List VarId}
    {f : Observe W T} (h : m.solver.Sound cells) :
    Ensures (insertObserver sink inputs f) m fun _ m' =>
      m'.solver.Sound cells ∧ m.solver.Beside m'.solver := by
  unfold insertObserver declare ofBuild
  simp only [ensures_bind, ensures_ask, ensures_query]
  cases (Draft.define m.solver.config.observerStrength
      [.label "observer", .observer sink inputs f]).mapError SolveError.build with
  | error e => exact ⟨h, Beside.transitive.refl _⟩
  | ok d =>
    simp only
    refine (ensures_insert h).mono ?_
    rintro r m₁ ⟨⟨h₁, hb₁⟩, hstored⟩
    cases r with
    | error e => exact ⟨h₁, hb₁⟩
    | ok c =>
      -- the sink is entered into a constraint that is not yet part of the graph
      have hnode := (hstored.2 c).trans (if_pos rfl)
      obtain ⟨h₂, hb₂⟩ := h₁.enterSink hnode rfl rfl sink
      simp only
      refine .changeConstraint hnode ((ensures_pure _).2 ⟨h₂, ?_⟩)
      exact Beside.transitive.trans hb₁ hb₂

/-- Storing an observer whose sink no constraint mentions: afterwards the observer alone mentions it,
or still nothing does. -/
theorem ensures_insertObserver {m : Machine W T} {sink : VarId} {inputs : List VarId}
    {f : Observe W T} (h : m.solver.Sound cells) (hsink : m.solver.Unmentioned sink) :
    Ensures (insertObserver sink inputs f) m fun r m' =>
      (m'.solver.Sound cells ∧ m.solver.Beside m'.solver) ∧
      match r with
      | .ok c => m'.solver.OwnsSink c
      | .error _ => m'.solver.Unmentioned sink := by
  refine ((ensures_insertObserver_aside h).and
    (ensures_insertObserver_stored sink inputs f)).mono ?_
  rintro r m' ⟨haside, -, hstored⟩
  refine ⟨haside, ?_⟩
  cases r with
  | error e =>
    intro k n hn
    exact hsink ((hstored k).symm.trans hn)
  | ok c =>
    obtain ⟨d, -, -, hstored⟩ := hstored
    intro n v hn hv k n' hk hn'
    rw [hstored, if_pos rfl] at hn
    rw [hstored, if_neg hk] at hn'
    obtain rfl := Option.some.inj hn
    obtain rfl := Option.some.inj hv
    exact hsink hn'

/-- Making an observer with its sink and enabling it, if the condition holds once it is stored. -/
theorem ensures_observe {m : Machine W T} {inputs : List VarId} {f : Observe W T}
    (h : m.solver.Sound cells)
    (hP : Ensures (do insertObserver (← newUnassigned) inputs f) m fun r m' =>
      ∀ c, r = .ok c → P m'.solver c) :
    Ensures (observe fuel inputs f) m fun _ m' => Moves cells P fuel m m' := by
  rw [ensures_bind] at hP
  refine Ensures.moves_bind (Q := fun r m' => m'.solver.Sound cells ∧ ∀ sink, r = .ok sink →
    m'.solver.Unmentioned sink ∧ Ensures (insertObserver sink inputs f) m' fun r m'' =>
      ∀ c, r = .ok c → P m''.solver c) h ?_ ?_
  · refine (((ensures_storeVariable ⟨rfl, rfl, rfl, rfl, rfl⟩ h).and
      (storeVariable_abstains _ m)).and hP).mono ?_
    rintro r m₁ ⟨⟨⟨⟨h₁, hbeside⟩, hconstraints, hfree⟩, hdeeds⟩, hP₁⟩
    refine ⟨.beside h.toWellFormed hbeside hdeeds h₁, h₁, ?_⟩
    rintro sink rfl
    refine ⟨fun {c node} hnode hmem => ?_, hP₁⟩
    -- a variable that did not exist is mentioned by no constraint
    rw [hconstraints] at hnode
    have hlive := h.mentioned hnode sink hmem
    rw [hfree sink rfl] at hlive
    cases hlive
  rintro sink m₁ h₁ ⟨_, hsink⟩
  obtain ⟨hsink, hP₁⟩ := hsink sink rfl
  refine Ensures.moves_bind (Q := fun r m' => match r with
    | .ok (.ok c) => m'.solver.OwnsSink c ∧ P m'.solver c
    | .ok (.error _) => m'.solver.Unmentioned sink
    | .error _ => True) h₁ ?_ ?_
  · rw [ensures_attempt]
    refine (((ensures_insertObserver h₁ hsink).and
      (insertObserver_abstains sink inputs f m₁)).and hP₁).mono ?_
    rintro r m₂ ⟨⟨⟨⟨h₂, hbeside⟩, hr⟩, hdeeds⟩, hP₂⟩
    have hmoves : Moves cells P fuel m₁ m₂ := .beside h₁.toWellFormed hbeside hdeeds h₂
    cases r with
    | ok c => exact ⟨hmoves, hr, hP₂ c rfl⟩
    | error e => exact ⟨hmoves, hr⟩
  · rintro result m₂ h₂ hr
    cases result with
    | ok c => exact ensures_enableOrRemove h₂ hr.1 hr.2
    | error e =>
      refine Ensures.moves_bind (Q := fun _ _ => True) h₂ ?_ fun _ m₃ h₃ _ => Proceeds.throw e m₃ h₃
      exact ((ensures_eraseVariable h₂ hr).and (Abstains.update _ m₂)).mono
        fun _ _ ⟨⟨h₃, hbeside⟩, hdeeds⟩ => ⟨.beside h₂.toWellFormed hbeside hdeeds h₃, trivial⟩

/-! ## Writing -/

/-- A cell may be written directly if the constraints around it are volatile: their outputs are not
constant. -/
theorem ensures_writeDirectly {m : Machine W T} {v : VarId} {value : T} {x : Variable T}
    (h : m.solver.Sound cells) (hx : m.solver.variableAt? v = some x)
    (hvolatile : ∀ c ∈ x.incident, ∀ node, m.solver.constraintAt? c = some node →
      node.definition.volatile = true) :
    Ensures (writeDirectly v value) m fun _ m' => Moves cells P fuel m m' := by
  have hr := Solver.rewrites_modifyVariable (.assigned value) v m.solver
  have hcells : m.solver.passes < 2 ^ 64 → ∀ k node method, m.solver.constraintAt? k = some node →
      node.enforcingMethod? = some method → m.solver.constantAt method.output = true →
      ∀ u ∈ node.definition.vars, (m.solver.modifyVariable v fun x =>
        { x with cell := .assigned value }).cellAt u = m.solver.cellAt u := by
    -- a constant output does not compute from `v`, whose constraints are volatile
    intro hlt k node method hnode hmethod hconst u hu
    refine (Solver.samePaint_of_eq ?_).2.2
    rw [Solver.variableAt?_modifyVariable, if_neg]
    rintro rfl
    obtain ⟨i, hi, _⟩ := Option.bind_eq_some_iff.1 hmethod
    have hinc := (h.incident hx k).2 ⟨node, hnode, (h.enforcing hnode hi).1, hu⟩
    have hvol := (((h.rest hlt).settled k).constant_of_constant hnode hmethod hconst).1
    rw [hvolatile k hinc node hnode] at hvol
    cases hvol
  refine Ensures.moves_bind (Q := fun _ _ => True) h ?_ fun _ m₁ h₁ _ =>
    Proceeds.bind (.count (by intro; rfl)) (fun _ => .note rfl) m₁ h₁
  refine .changeVariable hx ⟨.single (.aside hr.aside ?_ ?_), trivial⟩
  · exact fun _ hlt k node method hnode hmethod hconst =>
      ⟨hcells hlt k node method hnode hmethod hconst, rfl⟩
  · exact h.rewrites hr fun _ hlt => hcells hlt

/-- The constraint that a value is written through. -/
def writer (s : Solver W T) (v : VarId) (value : T) : Constraint W T :=
  { definition := .edit s.config.writeStrength (some "write") v value }

/-- It mentions only the variable. -/
theorem eq_of_mem_writer {s : Solver W T} {v u : VarId} {value : T}
    (hu : u ∈ (writer s v value).definition.vars) : u = v := by
  obtain ⟨method, hmethod, hmem⟩ := Definition.mem_vars.1 hu
  obtain rfl := List.mem_singleton.1 hmethod
  exact List.mem_singleton.1 hmem

/-- Writing through a constraint that is enabled and disabled, if the condition holds once it is
stored. The condition must not be one about the work counters. -/
theorem ensures_writeThrough {m : Machine W T} {v : VarId} {value : T} (h : m.solver.Sound cells)
    (hv : (m.solver.variableAt? v).isSome)
    (hcount : ∀ {s : Solver W T} {c : ConstraintId} (f : Metrics → Metrics), P s c →
      P { s with metrics := f s.metrics } c)
    (hP : Ensures (storeConstraint (writer m.solver v value)) m fun r m' =>
      ∀ c, r = .ok c → P m'.solver c) :
    Ensures (writeThrough fuel v value) m fun _ m' => Moves cells P fuel m m' := by
  unfold writeThrough
  rw [ensures_bind, ensures_ask]
  refine Ensures.moves_bind (Q := fun r m' => ∀ c, r = .ok c → P m'.solver c) h ?_ ?_
  · refine (((ensures_storeConstraint rfl rfl ?_ h).and (storeConstraint_abstains _ m)).and hP).mono ?_
    · intro u hu
      rw [eq_of_mem_writer hu]
      exact hv
    · rintro r m₁ ⟨⟨⟨⟨h₁, hbeside⟩, _⟩, hdeeds⟩, hP₁⟩
      exact ⟨.beside h.toWellFormed hbeside hdeeds h₁, hP₁⟩
  intro c m₁ h₁ hP₁
  refine Ensures.moves_bind (Q := fun _ m' => P m'.solver c) h₁ ?_ fun _ m₂ h₂ hP₂ => ?_
  · exact (Proceeds.count (by intro; rfl) m₁ h₁).and
      ((ensures_count _).2 (hcount (fun x => { x with edits := x.edits + 1 }) (hP₁ c rfl)))
  refine Ensures.moves_bind (Q := fun _ m' => P m'.solver c) h₂ ?_ fun _ m₃ h₃ hP₃ => ?_
  · exact (Proceeds.note rfl m₂ h₂).and ((ensures_note _).2 hP₂)
  refine Ensures.moves_bind (Q := fun _ _ => True) h₃ ?_ fun result m₄ h₄ _ => ?_
  · rw [ensures_attempt]
    exact (ensures_move_enable hP₃).mono fun _ _ hmoves => ⟨hmoves, trivial⟩
  refine Ensures.moves_bind (Q := fun _ m' => ¬ m'.solver.Enabled c) h₄ ?_ fun cleanup m₅ h₅ hoff => ?_
  · rw [ensures_attempt]
    exact (ensures_move_disable c).and ((ensures_disable fuel c).mono fun _ _ hk => hk.2)
  refine Ensures.moves_bind (Q := fun _ _ => True) h₅ ?_ fun _ m₆ h₆ _ =>
    Proceeds.bind (.query _) (fun _ => .query _) m₆ h₆
  exact ((ensures_eraseConstraint h₅ hoff).and (Abstains.update _ m₅)).mono
    fun _ _ ⟨⟨h₆, hbeside⟩, hdeeds⟩ => ⟨.beside h₅.toWellFormed hbeside hdeeds h₆, trivial⟩

/-- Whether a value is written directly: all constraints on the variable are volatile. -/
def writesDirectly (s : Solver W T) (x : Variable T) : Bool :=
  x.incident.toList.all fun c => (s.constraintAt? c).any (·.definition.volatile)

/-- Writing a value: directly if all constraints on the variable are volatile, else through an
edit. -/
theorem ensures_write {m : Machine W T} {v : VarId} {value : T} (h : m.solver.Sound cells)
    (hcount : ∀ {s : Solver W T} {c : ConstraintId} (f : Metrics → Metrics), P s c →
      P { s with metrics := f s.metrics } c)
    (hP : ∀ x, m.solver.variableAt? v = some x → writesDirectly m.solver x = false →
      Ensures (storeConstraint (writer m.solver v value)) m fun r m' =>
        ∀ c, r = .ok c → P m'.solver c) :
    Ensures (write fuel v value) m fun _ m' => Moves cells P fuel m m' := by
  unfold write
  rw [ensures_bind, ensures_getVariable]
  cases hx : m.solver.variableAt? v with
  | none =>
    rw [Solver.lookupVariable, hx]
  | some x =>
    rw [Solver.lookupVariable_eq_ok hx]
    simp only [ensures_bind, ensures_ask]
    split
    · next hdirect =>
      refine ensures_writeDirectly h hx fun c hc node hnode => ?_
      have hall := List.all_eq_true.1 hdirect c hc
      rw [hnode] at hall
      exact hall
    · next hdirect =>
      refine ensures_writeThrough h (by rw [hx]; rfl) hcount (hP x hx ?_)
      simpa [writesDirectly] using hdirect

/-! ## Plans -/

/-- The outputs of the constraints are not constant. -/
def Changeable (s : Solver W T) (hot : OrderedSet ConstraintId) : Prop :=
  ∀ c ∈ hot, ∀ o, s.Determines c o → s.constantAt o = false

/-- What is computed from a variable that is not constant is not constant. -/
theorem constantAt_of_reads {s : Solver W T} (h : s.Rest cells) {c : ConstraintId} {v w : VarId}
    (hv : s.constantAt v = false) (hr : s.Reads c v w) : s.constantAt w = false := by
  obtain ⟨node, hnode, hout, hmem, _⟩ := hr
  obtain ⟨method, hmethod, rfl⟩ := Option.map_eq_some_iff.1 hout
  by_contra hconst
  rw [Bool.not_eq_false] at hconst
  have hall := ((h.settled c).constant_of_constant hnode hmethod hconst).2 v hmem
  rw [hv] at hall
  cases hall

/-- Claiming a variable is done aside. -/
theorem ensures_claim {m : Machine W T} {mark : Mark} {v : VarId} {x : Variable T}
    (h : m.solver.Sound cells) (hx : m.solver.variableAt? v = some x)
    (hdrawn : mark.value.toNat ≤ m.solver.passes) :
    Ensures (changeVariable v fun x => { x with mark := mark }) m fun r m' => r = .ok () ∧
      (m'.solver.Sound cells ∧ m.solver.Beside m'.solver) ∧ m'.solver.passes = m.solver.passes ∧
      (∀ k, m'.solver.constraintAt? k = m.solver.constraintAt? k) ∧
      (∀ u, m'.solver.constantAt u = m.solver.constantAt u) ∧
      ∃ x', m'.solver.variableAt? v = some x' := by
  refine .changeVariable hx ?_
  have hpaint : ∀ u, Solver.SamePaint m.solver
      (m.solver.modifyVariable v fun x => { x with mark := mark }) u := fun u =>
    Solver.samePaint_of_map (Solver.variableAt?_marked v mark u) fun _ => ⟨rfl, rfl, rfl⟩
  refine ⟨rfl, ⟨⟨h.toWellFormed.marked v mark, fun hlt => (h.rest hlt).marked v mark hdrawn⟩, ?_⟩,
    rfl, fun _ => rfl, fun u => (hpaint u).2.1, ?_⟩
  · exact Solver.beside_of_samePaint (fun _ => rfl) (fun _ u _ => hpaint u) (Nat.le_refl _) rfl rfl
  · exact ⟨_, by rw [Solver.variableAt?_marked, hx]; rfl⟩

/-- Scheduling marks variables and changes nothing else. If it begins with constraints whose outputs
are not constant, the steps are good. -/
theorem ensures_schedule {m : Machine W T} {mark : Mark} {fuel : Nat}
    {hot : OrderedSet ConstraintId} (h : m.solver.Sound cells)
    (hdrawn : mark.value.toNat ≤ m.solver.passes)
    (hhot : m.solver.passes < 2 ^ 64 → Changeable m.solver hot) :
    Ensures (schedule mark fuel hot) m fun r m' =>
      (m'.solver.Sound cells ∧ m.solver.Beside m'.solver) ∧ m'.solver.passes = m.solver.passes ∧
      ∀ steps, r = .ok steps → m.solver.passes < 2 ^ 64 → ∀ step ∈ steps, m'.solver.Good step := by
  -- by induction on the fuel; what is still to be visited has outputs that are not constant
  induction fuel generalizing m hot with
  | zero => exact ensures_unfinished
  | succ fuel ih =>
    unfold schedule
    cases hpop : hot.pop? with
    | none =>
      refine (ensures_pure _).2 ⟨⟨h, Beside.transitive.refl _⟩, rfl, fun steps hr _ => ?_⟩
      obtain rfl := Except.ok.inj hr
      exact nofun
    | some p =>
      obtain ⟨c, rest⟩ := p
      have hmem : ∀ {k}, k ∈ hot ↔ k = c ∨ k ∈ rest := OrderedSet.mem_of_pop? hpop
      simp only
      rw [ensures_bind, ensures_query]
      cases hready : m.solver.readyStep? mark c with
      | error e => exact ⟨⟨h, Beside.transitive.refl _⟩, rfl, nofun⟩
      | ok ready =>
        cases ready with
        | none => exact ih h hdrawn fun hlt k hk => hhot hlt k (hmem.2 (.inr hk))
        | some step =>
          obtain ⟨node, rfl, hnode, hi, hout, _⟩ := Solver.readyStep?_eq_some hready
          have hdet : m.solver.Determines step.constraint step.output := ⟨node, hnode, hout⟩
          obtain ⟨x, hx⟩ := Option.isSome_iff_exists.1
            (h.mentioned hnode _ (Constraint.mem_vars_of_output? hout))
          simp only [ensures_bind]
          refine (ensures_claim h hx hdrawn).mono ?_
          rintro _ m₁ ⟨rfl, ⟨h₁, hb₁⟩, hp₁, hconstraint, hconstant, x₁, hx₁⟩
          simp only
          refine .getVariable hx₁ ?_
          simp only [ensures_ask]
          have hreads : ∀ {k v w}, m₁.solver.Reads k v w → m.solver.Reads k v w :=
            (Solver.reads_congr hconstraint).1
          -- what is inserted reads the output that was claimed, which is not constant
          have hhot₁ : m₁.solver.passes < 2 ^ 64 →
              Changeable m₁.solver (rest.insertAll (m₁.solver.consumers x₁)) := by
            rintro hlt k hk o ⟨n, hn, ho⟩
            have hlt' : m.solver.passes < 2 ^ 64 := hp₁ ▸ hlt
            rw [hconstant]
            rcases OrderedSet.mem_insertAll.1 hk with hk | hk
            · exact hhot hlt' k (hmem.2 (.inr hk)) o ⟨n, (hconstraint k).symm.trans hn, ho⟩
            · obtain ⟨w, hr⟩ := (h₁.toWellFormed.mem_consumers hx₁).1 hk
              obtain rfl := Solver.Determines.unique ⟨n, hn, ho⟩ hr.determines
              exact constantAt_of_reads (h.rest hlt')
                (hhot hlt' _ (hmem.2 (.inl rfl)) _ hdet) (hreads hr)
          refine (ih h₁ (hp₁ ▸ hdrawn) hhot₁).mono ?_
          rintro r m₂ ⟨⟨h₂, hb₂⟩, hp₂, hsteps⟩
          cases r with
          | error e =>
            exact ⟨⟨h₂, Beside.transitive.trans hb₁ hb₂⟩, hp₂.trans hp₁, nofun⟩
          | ok later =>
            refine (ensures_pure _).2 ⟨⟨h₂, Beside.transitive.trans hb₁ hb₂⟩, hp₂.trans hp₁,
              fun steps hr hlt step' hstep' => ?_⟩
            obtain rfl := Except.ok.inj hr
            rcases List.mem_cons.1 hstep' with rfl | hstep'
            · -- the later steps change nothing that this one relies on
              refine (hb₂.quiet h₁.toWellFormed).good hb₂.changes _
                ⟨node, (hconstraint _).trans hnode, hi, hout, ?_⟩
              rw [hconstant]
              exact hhot hlt _ (hmem.2 (.inl rfl)) _ hdet
            · exact hsteps later rfl (hp₁ ▸ hlt) step' hstep'

/-- The volatile sources that seeds name have outputs that are not constant. -/
theorem sources_changeable {s : Solver W T} (h : s.Rest cells) {seeds : List Handle}
    {found hot : OrderedSet ConstraintId} (hfound : Changeable s found)
    (hs : s.sources seeds found = .ok hot) : Changeable s hot := by
  -- a volatile constraint never makes its output constant
  have hsource : ∀ {c}, s.isVolatileSource c = true → ∀ o, s.Determines c o →
      s.constantAt o = false := by
    rintro c hc o ⟨node, hnode, hout⟩
    simp only [Solver.isVolatileSource, hnode, Option.any_some, Bool.and_eq_true] at hc
    obtain ⟨method, hmethod, rfl⟩ := Option.map_eq_some_iff.1 hout
    by_contra hconst
    rw [Bool.not_eq_false] at hconst
    have hvol := ((h.settled c).constant_of_constant hnode hmethod hconst).1
    rw [hc.1.2] at hvol
    cases hvol
  have hinsert : ∀ {found : OrderedSet ConstraintId}, Changeable s found →
      ∀ cs : List ConstraintId,
        Changeable s (found.insertAll (cs.filter s.isVolatileSource)) := by
    intro found hfound cs c hc
    rcases OrderedSet.mem_insertAll.1 hc with hc | hc
    · exact hfound c hc
    · exact hsource (List.mem_filter.1 hc).2
  -- by induction on the seeds, each of which adds volatile sources only
  induction seeds generalizing found with
  | nil =>
    obtain rfl := Except.ok.inj hs
    exact hfound
  | cons seed seeds ih =>
    cases seed with
    | var v =>
      unfold Solver.sources at hs
      cases hx : s.lookupVariable v with
      | error e =>
        rw [hx] at hs
        cases hs
      | ok x =>
        rw [hx] at hs
        exact ih (hinsert hfound _) hs
    | constraint c =>
      unfold Solver.sources at hs
      cases hx : s.lookupConstraint c with
      | error e =>
        rw [hx] at hs
        cases hs
      | ok x =>
        rw [hx] at hs
        exact ih (hinsert hfound _) hs

/-- A plan is built at the generation that it names, and its steps are good. -/
theorem ensures_plan {m : Machine W T} {fuel : Nat} {seeds : List Handle}
    (h : m.solver.Sound cells) :
    Ensures (plan fuel seeds) m fun r m' =>
      (m'.solver.Sound cells ∧ m.solver.Beside m'.solver) ∧
      ∀ p, r = .ok p → p.generation = m'.solver.generation ∧
        (m'.solver.passes < 2 ^ 64 → ∀ step ∈ p.steps, m'.solver.Good step) := by
  unfold plan nextMark
  rw [ensures_bind, ensures_query]
  cases hsources : m.solver.sources seeds .empty with
  | error e => exact ⟨⟨h, Beside.transitive.refl _⟩, by simp⟩
  | ok hot =>
    simp only [ensures_bind, ensures_update, ensures_ask]
    have hb : m.solver.Beside { m.solver with passes := m.solver.passes + 1 } :=
      Solver.beside_of_samePaint (fun _ => rfl) (fun _ _ _ => ⟨rfl, rfl, rfl⟩) (Nat.le_succ _) rfl rfl
    have hhot : m.solver.passes + 1 < 2 ^ 64 →
        Changeable ({ m.solver with passes := m.solver.passes + 1 } : Solver W T) hot := by
      intro hlt
      have hrest := h.rest (Nat.lt_of_succ_lt hlt)
      have hnone : Changeable m.solver .empty := fun c hc => absurd hc List.not_mem_nil
      exact sources_changeable hrest hnone hsources
    refine (ensures_schedule (m := ⟨_, m.world, m.journal⟩) h.nextPass (Mark.ofPass_le _)
      hhot).mono ?_
    rintro r m₁ ⟨⟨h₁, hb₁⟩, hp₁, hsteps⟩
    cases r with
    | error e => exact ⟨⟨h₁, Beside.transitive.trans hb hb₁⟩, by simp⟩
    | ok steps =>
      simp only [ensures_count, ensures_note, ensures_pure]
      have halike : m₁.solver.Alike { m₁.solver with metrics :=
          { m₁.solver.metrics with plansBuilt := m₁.solver.metrics.plansBuilt + 1 } } :=
        ⟨fun _ => rfl, fun _ => rfl, rfl, rfl⟩
      have hbeside := halike.beside rfl
      refine ⟨⟨h₁.alike halike,
        Beside.transitive.trans (Beside.transitive.trans hb hb₁) hbeside⟩, fun p hp => ?_⟩
      obtain rfl := Except.ok.inj hp
      refine ⟨rfl, fun hlt step hstep => (hbeside.quiet h₁.toWellFormed).good rfl step ?_⟩
      exact hsteps steps rfl (hp₁ ▸ hlt) step hstep

/-- Running a method writes a cell at most. -/
theorem execute_rewrites (c : ConstraintId) (i : Nat) :
    Obeys (W := W) (T := T) Solver.Rewrites (execute c i) := by
  have hT := Solver.Rewrites.transitive (W := W) (T := T)
  have hcount : ∀ {f : Metrics → Metrics}, (∀ x, (f x).faults = x.faults) →
      Obeys (W := W) (T := T) Solver.Rewrites (count f) := fun hf =>
    .update fun s => Solver.Alike.rewrites ⟨fun _ => rfl, fun _ => rfl, rfl, rfl⟩ (hf _)
  unfold execute
  refine .bind hT (.getConstraint hT c) fun node => ?_
  cases node.definition.method? i with
  | none => exact .pure hT _
  | some x =>
    refine .bind hT (.query hT _) fun inputs => ?_
    refine .bind hT (.runOn hT x inputs) fun outcome => ?_
    refine .bind hT (hcount (by intro; rfl)) fun _ => .bind hT (.getVariable hT _) fun _ => ?_
    cases outcome with
    | assign value =>
      refine .bind hT (.changeVariable hT ?_) fun _ => .note hT _
      exact Solver.rewrites_modifyVariable _ _
    | keep => exact .note hT _
    | fail cause =>
      refine .bind hT (.note hT _) fun _ => .bind hT (hcount (by intro; rfl)) fun _ => ?_
      refine .bind hT (.changeVariable hT ?_) fun _ => .note hT _
      exact Solver.rewrites_modifyVariable _ _

/-- Running a step keeps the graph sound and spares the outputs that are constant, if the step is good or
the cells are not looked at. -/
theorem ensures_step {m : Machine W T} {step : PlanStep} (h : m.solver.Sound cells)
    (hgood : cells → m.solver.passes < 2 ^ 64 → m.solver.Good step) :
    Ensures (execute step.constraint step.method) m fun _ m' => m'.solver.Sound cells ∧
      m.solver.Rewrites m'.solver ∧ (cells → m.solver.passes < 2 ^ 64 → m.Spares m') := by
  refine ((execute_rewrites step.constraint step.method m).and
    (Q := fun _ m' => cells → m.solver.passes < 2 ^ 64 → m.Spares m') ?_).mono ?_
  · intro r m' hrun hc hlt k n method hn hmethod hconst
    -- the method that is run is the one in force, so it writes the output of the step
    obtain ⟨node, hnode, hi, hout, hfalse⟩ := hgood hc hlt
    obtain ⟨j, ran, hj, hget, he⟩ := Constraint.output?_eq_some_iff.1 hout
    obtain rfl := Option.some.inj (hj.symm.trans hi)
    obtain ⟨_, hvars, _, hdeeds⟩ := ensures_execute_stores h.toGrounded hnode hget r m' hrun
    -- a constant output computes from constants only, and that of the step is not constant
    have hall := (((h.rest hlt).settled k).constant_of_constant hn hmethod hconst).2
    have hne : step.output ∉ n.definition.vars := by
      intro hmem
      rw [hall _ hmem] at hfalse
      cases hfalse
    refine ⟨fun v hv => (Solver.samePaint_of_eq ?_).2.2,
      Machine.ledger_of_not_concerns hdeeds (decide_eq_false ?_)⟩
    · rw [hvars, he]
      simp only [if_neg (ne_of_mem_of_not_mem hv hne)]
      exact Option.map_id'
    · rintro rfl
      obtain rfl := Option.some.inj (hnode.symm.trans hn)
      exact hne (Constraint.mem_vars_of_output? hout)
  · rintro r m' ⟨hr, hspares⟩
    exact ⟨h.rewrites hr fun hc hlt _ _ _ hnode hmethod hconst =>
      (hspares hc hlt hnode hmethod hconst).1, hr, hspares⟩

/-- Executing a plan is done aside, if its steps are good or the cells are not looked at. -/
theorem ensures_executePlan {m : Machine W T} {p : Plan} (h : m.solver.Sound cells)
    (hgood : cells → m.solver.passes < 2 ^ 64 → p.generation = m.solver.generation →
      ∀ step ∈ p.steps, m.solver.Good step) :
    Ensures (executePlan p) m fun _ m' => Moves cells P fuel m m' := by
  have hsteps : ∀ (steps : List PlanStep) (m : Machine W T), m.solver.Sound cells →
      (cells → m.solver.passes < 2 ^ 64 → ∀ step ∈ steps, m.solver.Good step) →
      Ensures (steps.forM fun step => execute step.constraint step.method) m fun _ m' =>
        m'.solver.Sound cells ∧ m.solver.Rewrites m'.solver ∧
          (cells → m.solver.passes < 2 ^ 64 → m.Spares m') := by
    -- by induction on the steps; the first keeps the others good
    intro steps
    induction steps with
    | nil =>
      exact fun m h _ =>
        (ensures_pure _).2 ⟨h, Solver.Rewrites.transitive.refl _, fun _ _ => .refl m⟩
    | cons step steps ih =>
      intro m h hgood
      change Ensures (execute step.constraint step.method >>= fun _ =>
        steps.forM fun step => execute step.constraint step.method) m _
      rw [ensures_bind]
      refine (ensures_step h fun hc hlt => hgood hc hlt step List.mem_cons_self).mono ?_
      rintro r m₁ ⟨h₁, hr₁, hspares₁⟩
      cases r with
      | error e => exact ⟨h₁, hr₁, hspares₁⟩
      | ok _ =>
        refine (ih m₁ h₁ fun hc hlt step' hstep' => ?_).mono ?_
        · exact (hr₁.aside.quiet h.toWellFormed).good hr₁.changes step'
            (hgood hc (hr₁.passes ▸ hlt) step' (List.mem_cons_of_mem step hstep'))
        · rintro r m₂ ⟨h₂, hr₂, hspares₂⟩
          exact ⟨h₂, Solver.Rewrites.transitive.trans hr₁ hr₂, fun hc hlt =>
            (hspares₁ hc hlt).trans hr₁ (hspares₂ hc (hr₁.passes ▸ hlt))⟩
  unfold executePlan
  rw [ensures_bind, ensures_ask]
  simp only
  split
  · rw [ensures_bind, ensures_throw]
  · next hgen =>
    rw [ne_eq, not_not] at hgen
    refine Ensures.moves_bind (Q := fun _ _ => True) h ?_ fun _ m₁ h₁ _ =>
      Proceeds.count (by intro; rfl) m₁ h₁
    exact (hsteps p.steps m h fun hc hlt => hgood hc hlt hgen).mono
      fun _ _ ⟨h₁, hr₁, hspares₁⟩ => ⟨.single (.aside hr₁.aside hspares₁ h₁), trivial⟩

/-- Scheduling runs no method and puts none in force. -/
theorem schedule_abstains (mark : Mark) (fuel : Nat) (hot : OrderedSet ConstraintId) :
    Abstains (W := W) (T := T) (schedule mark fuel hot) := by
  induction fuel generalizing hot with
  | zero => exact fun _ => ensures_unfinished
  | succ fuel ih =>
    unfold schedule
    cases hot.pop? with
    | none => exact .pure _
    | some p =>
      refine .bind (.query _) fun step => ?_
      cases step with
      | none => exact ih _
      | some step =>
        exact .bind (.changeVariable _ _) fun _ => .bind (.getVariable _) fun _ =>
          .bind (.ask _) fun _ => .bind (ih _) fun _ => .pure _

/-- Planning runs no method and puts none in force. -/
theorem plan_abstains (fuel : Nat) (seeds : List Handle) :
    Abstains (W := W) (T := T) (plan fuel seeds) :=
  .bind (.query _) fun _ => .bind nextMark_abstains fun _ => .bind (schedule_abstains _ _ _) fun _ =>
    .bind (.count _) fun _ => .bind (.ask _) fun _ => .bind (.note rfl) fun _ => .pure _

/-- Planning changes marks and counters only. -/
theorem plan_proceeds (seeds : List Handle) : Proceeds cells P fuel (plan fuel seeds) :=
  fun m h => ((ensures_plan h).and (plan_abstains fuel seeds m)).mono
    fun _ _ ⟨⟨⟨h', hbeside⟩, _⟩, hdeeds⟩ => .beside h.toWellFormed hbeside hdeeds h'

/-- A plan that is executed right after it was built has good steps. -/
theorem recompute_proceeds (seed : Handle) : Proceeds cells P fuel (recompute fuel seed) := by
  intro m h
  refine Ensures.moves_bind h ((plan_proceeds [seed] m h).and (ensures_plan h))
    fun p m₁ h₁ ⟨_, hp⟩ => ?_
  obtain ⟨_, hgood⟩ := hp p rfl
  exact ensures_executePlan h₁ fun _ hlt _ => hgood hlt

/-! ## Groups -/

/-- Members are disabled one after the other. -/
theorem undoMembers_proceeds (cs : List ConstraintId) :
    Proceeds cells P fuel (undoMembers fuel cs) := by
  induction cs with
  | nil => exact .pure _
  | cons c cs ih =>
    refine .bind (.attempt (.disable c)) fun r => ?_
    cases r with
    | ok _ => exact ih
    | error e => exact .bind (.note rfl) fun _ => ih

/-- What a step of enabling members comes to: the member does not exist, or it is enabled already, or it
is enabled now. If this fails, the members enabled so far are disabled again, and so is this one, if it
is enabled in spite of the failure. -/
theorem Ensures.enableMembers_cons {m : Machine W T} {c : ConstraintId} {cs done : List ConstraintId}
    {Q : Except SolveError Unit → Machine W T → Prop}
    (hnone : m.solver.constraintAt? c = none → Q (.error (.unknownConstraint c)) m)
    (hon : m.solver.Enabled c → Ensures (enableMembers fuel cs done) m Q)
    (hoff : (m.solver.constraintAt? c).isSome → ¬ m.solver.Enabled c →
      Ensures (enable fuel c) m fun r m₁ =>
        (r = .ok () → Ensures (enableMembers fuel cs (c :: done)) m₁ Q) ∧
        ∀ e, r = .error e → Ensures
          (undoMembers fuel (if (m₁.solver.constraintAt? c).any (·.enabled) then c :: done else done))
          { m₁ with journal := .memberFailed c e :: m₁.journal }
          fun r' m' => Q (r' >>= fun _ => .error e) m') :
    Ensures (enableMembers fuel (c :: cs) done) m Q := by
  unfold enableMembers
  rw [ensures_bind, ensures_getConstraint]
  cases hnode : m.solver.constraintAt? c with
  | none =>
    rw [Solver.lookupConstraint, hnode]
    exact hnone hnode
  | some node =>
    rw [Solver.lookupConstraint_eq_ok hnode]
    simp only
    split
    · next hen => exact hon ⟨node, hnode, hen⟩
    · next hen =>
      have hnot : ¬ m.solver.Enabled c := by
        rintro ⟨n, hn, hen'⟩
        obtain rfl := Option.some.inj (hnode.symm.trans hn)
        exact hen hen'
      simp only [ensures_bind, ensures_attempt]
      refine (hoff (hnode ▸ rfl) hnot).mono ?_
      rintro r m₁ ⟨hok, herror⟩
      cases r with
      | ok _ => exact hok rfl
      | error e =>
        simp only [ensures_bind, ensures_ask, ensures_note]
        refine (herror e rfl).mono fun r' m' hundo => ?_
        cases r' with
        | ok _ => exact (ensures_throw _).2 hundo
        | error _ => exact hundo

/-- The condition holds whenever a member of a group is enabled: of the first one that is not enabled
already, and of the later ones if that succeeds. -/
def MembersWhere (P : Solver W T → ConstraintId → Prop) (fuel : Nat) :
    List ConstraintId → Machine W T → Prop
  | [], _ => True
  | c :: rest, m => (m.solver.Enabled c → MembersWhere P fuel rest m) ∧
    (¬ m.solver.Enabled c → P m.solver c ∧ Ensures (enable fuel c) m fun r m' =>
      r = .ok () → MembersWhere P fuel rest m')

/-- Members are enabled one after the other, and disabled again after a failure. -/
theorem ensures_enableMembers {m : Machine W T} {cs done : List ConstraintId}
    (h : m.solver.Sound cells) (hP : MembersWhere P fuel cs m) :
    Ensures (enableMembers fuel cs done) m fun _ m' => Moves cells P fuel m m' := by
  induction cs generalizing m done with
  | nil => exact Proceeds.pure _ m h
  | cons c cs ih =>
    refine .enableMembers_cons (fun _ => .refl) (fun hen => ih h (hP.1 hen)) fun _ hoff => ?_
    obtain ⟨hP, hrest⟩ := hP.2 hoff
    have hmove : Ensures (enable fuel c) m fun _ m' => Moves cells P fuel m m' :=
      ensures_move_enable hP
    refine (hmove.and hrest).mono ?_
    rintro r m₁ ⟨hmoves, hrest₁⟩
    have h₁ := (hmoves.keeps h).1
    refine ⟨fun hr => (ih h₁ (hrest₁ hr)).mono fun _ _ => hmoves.trans, fun e _ => ?_⟩
    -- the failure is noted before the members are disabled again
    let m₂ : Machine W T := { m₁ with journal := .memberFailed c e :: m₁.journal }
    have hnote : Moves cells P fuel m₁ m₂ :=
      .beside h₁.toWellFormed (Beside.transitive.refl _) (.note rfl) h₁
    exact (undoMembers_proceeds _ m₂ h₁).mono fun _ _ hundo => hmoves.trans (hnote.trans hundo)

/-- Members are disabled one after the other, whatever fails. -/
theorem disableMembers_proceeds (cs : List ConstraintId) (failure : Option SolveError) :
    Proceeds cells P fuel (disableMembers fuel cs failure) := by
  induction cs generalizing failure with
  | nil => cases failure with
    | none => exact .pure _
    | some e => exact .throw e
  | cons c cs ih =>
    unfold disableMembers
    refine .bind (.attempt (.disable c)) fun r => ?_
    cases r with
    | ok _ => exact ih _
    | error e => exact ih _

/-- A script makes variables and constraints, and enables none. -/
theorem buildGroup_proceeds (script : GroupScript W T) :
    Proceeds cells P fuel (buildGroup script) := by
  -- by induction on the script; groups may stand in groups
  induction script with
  | done => exact .pure _
  | add c rest ih => exact .bind (.getConstraint c) fun _ => .bind ih fun _ => .pure _
  | newVariable value rest ih =>
    exact .bind (newVariable_proceeds value) fun _ => .bind ih fun _ => .pure _
  | declare strength parts rest ih =>
    refine .bind (.query fun _ => (Draft.define strength parts).mapError .build) fun d => ?_
    exact .bind (insert_proceeds d) fun _ => .bind ih fun _ => .pure _
  | group inner rest ihi ihr => exact .bind ihi fun _ => .bind ihr fun _ => .pure _

end SolveM

namespace Call

open SolveM (Ensures Proceeds Moves)

variable {W T : Type} {cells : Prop} {P : Solver W T → ConstraintId → Prop} {m : Machine W T}
  {fuel : Nat}

/-- An observer is removed only if no other constraint mentions its sink, and, if the cells are
looked at, a plan is executed at the generation at which it was built only if its steps are good. -/
def Careful (cells : Prop) (s : Solver W T) : Call W T → Prop
  | removeConstraint c => s.OwnsSink c
  | executePlan p => cells → s.passes < 2 ^ 64 → p.generation = s.generation →
    ∀ step ∈ p.steps, s.Good step
  | _ => True

/-- Whenever a constraint is enabled in the course of the call, `P` holds of the solver at that moment
and the constraint. -/
def EnablesWhere (P : Solver W T → ConstraintId → Prop) (fuel : Nat) (m : Machine W T) :
    Call W T → Prop
  | enable c => P m.solver c
  | constrain d => Ensures (SolveM.insert d) m fun r m' => ∀ c, r = .ok c → P m'.solver c
  | stay v strength =>
    Ensures (SolveM.insert (.stay strength v)) m fun r m' => ∀ c, r = .ok c → P m'.solver c
  | edit v value strength =>
    Ensures (SolveM.insert (.edit strength none v value)) m fun r m' =>
      ∀ c, r = .ok c → P m'.solver c
  | observe inputs f =>
    Ensures (do SolveM.insertObserver (← SolveM.newUnassigned) inputs f) m fun r m' =>
      ∀ c, r = .ok c → P m'.solver c
  | write v value => ∀ x, m.solver.variableAt? v = some x →
    SolveM.writesDirectly m.solver x = false →
    Ensures (SolveM.storeConstraint (SolveM.writer m.solver v value)) m fun r m' =>
      ∀ c, r = .ok c → P m'.solver c
  | enableGroup g => Ensures (SolveM.note (.enablingGroup g.constraints.length)) m fun _ m' =>
    SolveM.MembersWhere P fuel g.constraints m'
  | _ => True

/-- What an operation ensures of its result, of which an answer is made. -/
theorem ensures_return {α : Type} {op : SolveM W T α} {f : α → Answer W T}
    {Q : Except SolveError (Answer W T) → Machine W T → Prop}
    (h : Ensures op m fun r m' => Q (r.map f) m') : Ensures (do return f (← op)) m Q := by
  rw [SolveM.ensures_bind]
  refine h.mono fun r m' hQ => ?_
  cases r with
  | ok a => exact (SolveM.ensures_pure _).2 hQ
  | error e => exact hQ

/-- What an operation comes to that ends with an answer. -/
theorem ensures_answer {α : Type} {op : SolveM W T α} {f : α → Answer W T}
    {Q : Machine W T → Prop} (h : Ensures op m fun _ m' => Q m') :
    Ensures (do return f (← op)) m fun _ m' => Q m' := ensures_return h

/-- A careful call proceeds by moves, whether it succeeds or fails. -/
theorem ensures_moves {call : Call W T} (h : m.solver.Sound cells)
    (hcareful : call.Careful cells m.solver) (hreset : call ≠ resetMetrics)
    (hcount : ∀ {s : Solver W T} {c : ConstraintId} (f : Metrics → Metrics), P s c →
      P { s with metrics := f s.metrics } c)
    (hP : call.EnablesWhere P fuel m) :
    Ensures (call.run fuel) m fun _ m' => Moves cells P fuel m m' := by
  cases call with
  | query q => exact Proceeds.query q.answer m h
  | newVariable value => exact ensures_answer (SolveM.newVariable_proceeds value m h)
  | newUnassigned => exact ensures_answer (SolveM.newUnassigned_proceeds m h)
  | newVariables values => exact ensures_answer (SolveM.newVariables_proceeds values m h)
  | named name => exact ensures_answer (SolveM.named_proceeds name m h)
  | write v value =>
    exact ensures_answer (f := fun _ => .done) (SolveM.ensures_write h hcount hP)
  | removeVariable v =>
    exact ensures_answer (f := fun _ => .done) (SolveM.removeVariable_proceeds v m h)
  | insert d => exact ensures_answer (SolveM.insert_proceeds d m h)
  | constrain d => exact ensures_answer (SolveM.ensures_constrain h hP)
  | stay v strength => exact ensures_answer (SolveM.ensures_constrain h hP)
  | edit v value strength => exact ensures_answer (SolveM.ensures_constrain h hP)
  | observe inputs f => exact ensures_answer (SolveM.ensures_observe h hP)
  | substitute c f => exact ensures_answer (SolveM.substitute_proceeds c f m h)
  | enable c => exact ensures_answer (f := fun _ => .done) (SolveM.ensures_move_enable hP)
  | disable c => exact ensures_answer (f := fun _ => .done) (SolveM.ensures_move_disable c)
  | removeConstraint c =>
    exact ensures_answer (f := fun _ => .done) (SolveM.ensures_removeConstraint h hcareful)
  | plan seeds => exact ensures_answer (SolveM.plan_proceeds seeds m h)
  | executePlan p =>
    exact ensures_answer (f := fun _ => .done) (SolveM.ensures_executePlan h hcareful)
  | recompute seed =>
    exact ensures_answer (f := fun _ => .done) (SolveM.recompute_proceeds seed m h)
  | enableGroup g =>
    refine ensures_answer (f := fun _ => .done) ?_
    refine Ensures.moves_bind h ((Proceeds.note rfl m h).and hP) fun _ m₁ h₁ hmembers => ?_
    exact SolveM.ensures_enableMembers h₁ hmembers
  | disableGroup g =>
    exact ensures_answer (f := fun _ => .done)
      (Proceeds.bind (.note rfl) (fun _ => SolveM.disableMembers_proceeds _ _) m h)
  | buildGroup script =>
    exact ensures_answer (f := fun p => .built p.1 p.2) (SolveM.buildGroup_proceeds script m h)
  | resetMetrics => exact absurd rfl hreset

/-- A condition that always holds is no condition. -/
theorem enablesWhere_true (call : Call W T) : call.EnablesWhere (fun _ _ => True) fuel m := by
  have hmembers : ∀ (cs : List ConstraintId) (m : Machine W T),
      SolveM.MembersWhere (fun _ _ => True) fuel cs m := by
    intro cs
    induction cs with
    | nil => exact fun _ => trivial
    | cons c cs ih =>
      exact fun m => ⟨fun _ => ih m, fun _ => ⟨trivial, fun _ m' _ _ => ih m'⟩⟩
  cases call with
  | constrain d => exact fun _ _ _ _ _ => trivial
  | stay v strength => exact fun _ _ _ _ _ => trivial
  | edit v value strength => exact fun _ _ _ _ _ => trivial
  | observe inputs f => exact fun _ _ _ _ _ => trivial
  | write v value => exact fun _ _ _ _ _ _ _ _ => trivial
  | enableGroup g => exact fun _ m' _ => hmembers _ m'
  | _ => trivial

/-- A careful call keeps the graph, whether it succeeds or fails. -/
theorem ensures_run {call : Call W T} (h : m.solver.Sound cells)
    (hcareful : call.Careful cells m.solver) :
    Ensures (call.run fuel) m fun _ m' => m'.solver.Sound cells ∧ m.solver.Quiet m'.solver := by
  by_cases hreset : call = resetMetrics
  · subst hreset
    have halike : m.solver.Alike { m.solver with metrics := {} } :=
      ⟨fun _ => rfl, fun _ => rfl, rfl, rfl⟩
    unfold run SolveM.resetMetrics
    rw [SolveM.ensures_bind, SolveM.ensures_count]
    refine (SolveM.ensures_pure _).2 ⟨h.alike halike, ?_⟩
    exact ⟨Nat.le_refl _, Nat.le_refl _, fun _ _ hgood => hgood⟩
  · exact (ensures_moves h hcareful hreset (fun _ _ => trivial) (enablesWhere_true call)).mono
      fun _ _ hmoves => hmoves.keeps h

/-- A plan that a call gives back is one of the generation reached, and its steps are good. -/
theorem ensures_run_plan {seeds : List Handle} {p : Plan} (h : m.solver.Sound cells) :
    Ensures ((plan seeds : Call W T).run fuel) m fun r m' => r = .ok (.plan p) →
      p.generation = m'.solver.generation ∧
        (m'.solver.passes < 2 ^ 64 → ∀ step ∈ p.steps, m'.solver.Good step) := by
  unfold run
  rw [SolveM.ensures_bind]
  refine (SolveM.ensures_plan h).mono ?_
  rintro r m' ⟨_, hp⟩
  cases r with
  | error e => exact nofun
  | ok p' =>
    refine (SolveM.ensures_pure _).2 fun hr => ?_
    obtain rfl := Answer.plan.inj (Except.ok.inj hr)
    exact hp p' rfl

end Call

end DeltaBlue
