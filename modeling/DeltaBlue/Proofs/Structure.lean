import DeltaBlue.Proofs.Frame

/-!
# The structure of the constraint graph

Which constraint determines which variable is written down three times: a constraint knows its
method in force, a variable its determiner, and a variable also the enabled constraints that mention
it. `Solver.WellFormed` says that these agree and that no constraint mentions a variable that does
not exist.

Three changes of the graph move a constraint: it enters the graph without a method (`Entered`), a
method of it is put in force (`Installed`), and it leaves the graph (`Detached`). Each is described
by what every look-up finds afterwards, and each keeps the graph well formed. To the constraints,
entering and leaving do the same but for the enabled flag (`Reset`).
-/

namespace DeltaBlue

namespace Definition

variable {W T : Type} {d : Definition W T} {m : Method W T} {v : VarId}

/-- The variables of a definition are a set. -/
theorem vars_nodup (d : Definition W T) : d.vars.Nodup := (mentioned d.methods).nodup

/-- The variables of a definition are those that its methods mention. -/
theorem mem_vars : v ∈ d.vars ↔ ∃ m ∈ d.methods, v ∈ m.vars := by
  rw [vars, ← OrderedSet.mem_def, mem_mentioned]

/-- Every method mentions every variable of its constraint. -/
theorem mem_vars_iff (hm : m ∈ d.methods) : v ∈ d.vars ↔ v = m.output ∨ v ∈ m.inputs := by
  have hvars : v ∈ m.vars ↔ v = m.output ∨ v ∈ m.inputs := List.mem_cons
  rw [← hvars]
  exact ⟨fun h => d.covers m hm v h, fun h => mem_vars.2 ⟨m, hm, h⟩⟩

/-- The output of a method is among the variables of its constraint. -/
theorem output_mem_vars (hm : m ∈ d.methods) : m.output ∈ d.vars :=
  (mem_vars_iff hm).2 (.inl rfl)

/-- The inputs of a method are the other variables of its constraint. -/
theorem mem_inputs_iff (hm : m ∈ d.methods) : v ∈ m.inputs ↔ v ∈ d.vars ∧ v ≠ m.output := by
  rw [mem_vars_iff hm]
  constructor
  · intro h
    refine ⟨.inr h, ?_⟩
    rintro rfl
    exact (d.proper m hm).output_not_mem h
  · rintro ⟨h | h, hne⟩
    · exact absurd h hne
    · exact h

/-- A method that is found by its index is one of the methods. -/
theorem mem_of_method? {i : Nat} (h : d.method? i = some m) : m ∈ d.methods :=
  List.mem_of_getElem? h

end Definition

namespace Constraint

variable {W T : Type} {node : Constraint W T} {v : VarId}

/-- A constraint determines the output of the method that is in force. -/
theorem output?_eq_some_iff :
    node.output? = some v ↔
      ∃ i m, node.enforcing = some i ∧ node.definition.method? i = some m ∧ m.output = v := by
  unfold output? enforcingMethod?
  rw [Option.map_eq_some_iff]
  constructor
  · rintro ⟨m, hm, hv⟩
    obtain ⟨i, hi, hm⟩ := Option.bind_eq_some_iff.1 hm
    exact ⟨i, m, hi, hm, hv⟩
  · rintro ⟨i, m, hi, hm, hv⟩
    exact ⟨m, Option.bind_eq_some_iff.2 ⟨i, hi, hm⟩, hv⟩

/-- Without a method in force nothing is determined. -/
theorem output?_eq_none (h : node.enforcing = none) : node.output? = none := by
  rw [output?, enforcingMethod?, h]
  rfl

/-- What is asked of a constraint before it is added. -/
theorem idle_iff :
    (node.enabled && !node.isEnforcing) = true ↔ node.enabled = true ∧ node.enforcing = none := by
  rw [Bool.and_eq_true, Bool.not_eq_true', isEnforcing, Option.isSome_eq_false_iff,
    Option.isNone_iff_eq_none]

/-- The variable that a constraint determines is one of its variables. -/
theorem mem_vars_of_output? (h : node.output? = some v) : v ∈ node.definition.vars := by
  obtain ⟨i, m, _, hm, rfl⟩ := output?_eq_some_iff.1 h
  exact Definition.output_mem_vars (Definition.mem_of_method? hm)

end Constraint

namespace Solver

variable {W T : Type}

/-- The constraint exists and its method in force has the variable as its output. -/
def Determines (s : Solver W T) (c : ConstraintId) (v : VarId) : Prop :=
  ∃ node, s.constraintAt? c = some node ∧ node.output? = some v

/-- The constraint exists and mentions the variable. -/
def Mentions (s : Solver W T) (c : ConstraintId) (v : VarId) : Prop :=
  ∃ node, s.constraintAt? c = some node ∧ v ∈ node.definition.vars

/-- The constraint is part of the graph and no method of it is in force. -/
def Idle (s : Solver W T) (c : ConstraintId) : Prop :=
  ∃ node, s.constraintAt? c = some node ∧ node.enabled = true ∧ node.enforcing = none

/-- What is asked of a constraint before it is added again. -/
theorem idle_iff {s : Solver W T} {c : ConstraintId} {node : Constraint W T}
    (hnode : s.constraintAt? c = some node) :
    s.Idle c ↔ (node.enabled && !node.isEnforcing) = true := by
  unfold Idle
  simp only [hnode, Option.some.injEq, exists_eq_left', Constraint.idle_iff]

/-- The same, asked of whatever is stored. -/
theorem idle_iff_any {s : Solver W T} {c : ConstraintId} :
    s.Idle c ↔ ((s.constraintAt? c).any fun x => x.enabled && !x.isEnforcing) = true := by
  unfold Idle
  simp only [Option.any_eq_true, Constraint.idle_iff]

/-- An idle constraint exists. -/
theorem Idle.live {s : Solver W T} {c : ConstraintId} (h : s.Idle c) :
    (s.constraintAt? c).isSome := by
  obtain ⟨n, hn, _⟩ := h
  rw [hn]
  rfl

/-- Every variable that a constraint mentions exists. -/
structure Grounded (s : Solver W T) : Prop where
  /-- The variables that a constraint mentions exist. -/
  mentioned : ∀ {c node}, s.constraintAt? c = some node →
    ∀ v ∈ node.definition.vars, (s.variableAt? v).isSome

/-- The three records of which constraint determines which variable agree. -/
structure WellFormed (s : Solver W T) : Prop extends Grounded s where
  /-- The determiner of a variable is the constraint whose method in force has it as output. -/
  determined : ∀ {v x}, s.variableAt? v = some x →
    ∀ c, x.determinedBy = some c ↔ s.Determines c v
  /-- A constraint with a method in force is enabled, and the method is one of its methods. -/
  enforcing : ∀ {c node i}, s.constraintAt? c = some node → node.enforcing = some i →
    node.enabled = true ∧ i < node.definition.methods.length
  /-- A variable is incident to the enabled constraints that mention it. -/
  incident : ∀ {v x}, s.variableAt? v = some x →
    ∀ c, c ∈ x.incident ↔
      ∃ node, s.constraintAt? c = some node ∧ node.enabled = true ∧ v ∈ node.definition.vars

variable {s s' : Solver W T} {c : ConstraintId} {node : Constraint W T}

/-- Which variables are mentioned is a matter of the definitions. -/
theorem Grounded.of_declared (h : s.Grounded)
    (hc : ∀ c, (s'.constraintAt? c).map Constraint.declared =
      (s.constraintAt? c).map Constraint.declared)
    (hv : ∀ v, (s'.variableAt? v).isSome = (s.variableAt? v).isSome) : s'.Grounded := by
  constructor
  intro c node' hnode' v hmem
  have hdeclared := hc c
  rw [hnode', Option.map_some] at hdeclared
  obtain ⟨node, hnode, he⟩ := Option.map_eq_some_iff.1 hdeclared.symm
  simp only [Constraint.declared, Prod.mk.injEq] at he
  rw [hv]
  exact h.mentioned hnode v (he.1 ▸ hmem)

/-- The structure is a matter of the constraints and of the links of the variables. -/
theorem WellFormed.of_links (h : s.WellFormed) (hc : ∀ c, s'.constraintAt? c = s.constraintAt? c)
    (hv : ∀ v, (s'.variableAt? v).map Variable.links = (s.variableAt? v).map Variable.links) :
    s'.WellFormed := by
  have hdet : ∀ c v, s'.Determines c v ↔ s.Determines c v := by
    intro c v
    unfold Determines
    rw [hc]
  -- a variable afterwards has the links that it had before
  have hvar : ∀ {v x'}, s'.variableAt? v = some x' → ∃ x, s.variableAt? v = some x ∧
      x'.determinedBy = x.determinedBy ∧ x'.incident = x.incident := by
    intro v x' hx'
    have hv := hv v
    rw [hx', Option.map_some] at hv
    obtain ⟨x, hx, he⟩ := Option.map_eq_some_iff.1 hv.symm
    simp only [Variable.links, Prod.mk.injEq] at he
    exact ⟨x, hx, he.2.symm, he.1.symm⟩
  -- first that mentioned variables exist, and then the three records
  refine ⟨h.toGrounded.of_declared ?_ ?_, ?_, ?_, ?_⟩
  · intro c
    rw [hc]
  · intro v
    simpa using congrArg Option.isSome (hv v)
  · intro v x' hx' c
    obtain ⟨x, hx, he, _⟩ := hvar hx'
    rw [he, hdet, h.determined hx]
  · intro c node i hn
    rw [hc] at hn
    exact h.enforcing hn
  · intro v x' hx' c
    obtain ⟨x, hx, _, he⟩ := hvar hx'
    rw [he, hc, h.incident hx]

/-- Repainting keeps the structure, since links are part of the shape. -/
theorem WellFormed.repaints (h : s.WellFormed) (hr : s.Repaints s') : s'.WellFormed := by
  refine h.of_links hr.constraintAt fun v => ?_
  have hshape := congrArg (Option.map fun p => (p.2.1, p.2.2.1)) (hr.shape v)
  rw [Option.map_map, Option.map_map] at hshape
  exact hshape

/-- A solver without variables and constraints is well formed. -/
theorem wellFormed_empty (config : Config) : (empty config : Solver W T).WellFormed where
  mentioned h := by simp at h
  determined h := by simp at h
  enforcing h := by simp at h
  incident h := by simp at h

/-- At most one constraint determines a variable. -/
theorem WellFormed.determines_unique (h : s.WellFormed) {c k : ConstraintId} {v : VarId}
    (hc : s.Determines c v) (hk : s.Determines k v) : c = k := by
  obtain ⟨node, hnode, hout⟩ := hc
  obtain ⟨x, hx⟩ := Option.isSome_iff_exists.1
    (h.mentioned hnode v (Constraint.mem_vars_of_output? hout))
  -- the variable has one determiner on record, and this is both of them
  have h1 := (h.determined hx c).2 ⟨node, hnode, hout⟩
  have h2 := (h.determined hx k).2 hk
  exact Option.some.inj (h1.symm.trans h2)

/-- A constraint with a method in force has an output. -/
theorem WellFormed.exists_output (h : s.WellFormed) (hnode : s.constraintAt? c = some node)
    (hen : node.isEnforcing = true) : ∃ o, node.output? = some o := by
  obtain ⟨i, hi⟩ := Option.isSome_iff_exists.1 hen
  have hlt := (h.enforcing hnode hi).2
  exact ⟨_, Constraint.output?_eq_some_iff.2 ⟨i, _, hi, List.getElem?_eq_getElem hlt, rfl⟩⟩

/-- A constraint without a method in force determines nothing. -/
theorem not_determines (hnode : s.constraintAt? c = some node) (hidle : node.enforcing = none)
    (v : VarId) : ¬ s.Determines c v := by
  rintro ⟨node', hnode', hout⟩
  rw [hnode] at hnode'
  obtain rfl := Option.some.inj hnode'
  rw [Constraint.output?_eq_none hidle] at hout
  cases hout

/-! ## The three changes -/

/-- `c` has entered the graph, without a method in force. -/
structure Entered (s s' : Solver W T) (c : ConstraintId) (node : Constraint W T) : Prop where
  /-- It was not part of the graph. -/
  before : s.constraintAt? c = some node ∧ node.enabled = false
  /-- The constraints afterwards. -/
  constraintAt : ∀ k, s'.constraintAt? k =
    if k = c then some { node with enabled := true, enforcing := none } else s.constraintAt? k
  /-- The variables afterwards. -/
  variableAt : ∀ v, s'.variableAt? v = (s.variableAt? v).map fun x =>
    if v ∈ node.definition.vars then { x with incident := x.incident.insert c } else x

/-- The unclaimed outputs of the methods are held at least at the given strength. -/
def HeldBy (s : Solver W T) (mark : Mark) (ms : List (Method W T)) (held : Strength) : Prop :=
  ∀ m ∈ ms, ∀ x, s.variableAt? m.output = some x → x.mark ≠ mark → held ≤ x.walkStrength

/-- Method `i` of `c` has been put in force in the pass with the given mark. The output of the
method was `x`, and the determiner of `x` has been displaced. -/
structure Installed (s s' : Solver W T) (mark : Mark) (c : ConstraintId) (node : Constraint W T)
    (i : Nat) (m : Method W T) (x : Variable T) : Prop where
  /-- The constraint was part of the graph and idle. -/
  before : s.constraintAt? c = some node ∧ node.enabled = true ∧ node.enforcing = none
  /-- The method is one of its methods. -/
  method : node.definition.method? i = some m
  /-- The output was unclaimed in the pass and held more weakly than the constraint insists. -/
  output : s.variableAt? m.output = some x ∧ x.mark ≠ mark ∧
    x.walkStrength < node.definition.strength
  /-- No unclaimed output of the constraint was held more weakly. -/
  weakest : s.HeldBy mark node.definition.methods x.walkStrength
  /-- The constraints afterwards. -/
  constraintAt : ∀ k, s'.constraintAt? k =
    if k = c then some { node with enforcing := some i }
    else if x.determinedBy = some k then
      (s.constraintAt? k).map fun y => { y with enforcing := none }
    else s.constraintAt? k
  /-- The variables afterwards. -/
  variableAt : ∀ v, s'.variableAt? v = (s.variableAt? v).map fun y =>
    { y with
      mark := if v ∈ node.definition.vars ∧ v ≠ m.output then mark else y.mark
      determinedBy := if v = m.output then some c else y.determinedBy }

/-- `c` has left the graph, and its output, if it determined one, is vacated. -/
structure Detached (s s' : Solver W T) (c : ConstraintId) (node : Constraint W T) : Prop where
  /-- The constraint before. -/
  before : s.constraintAt? c = some node
  /-- The constraints afterwards. -/
  constraintAt : ∀ k, s'.constraintAt? k =
    if k = c then some { node with enabled := false, enforcing := none } else s.constraintAt? k
  /-- The variables afterwards. -/
  variableAt : ∀ v, s'.variableAt? v = (s.variableAt? v).map fun x =>
    let x := if v ∈ node.definition.vars then { x with incident := x.incident.erase c } else x
    if node.output? = some v then x.release else x

/-- What entering and leaving have in common: of the constraints only `c` has changed, which is part of
the graph or is not and has no method in force. -/
structure Reset (s s' : Solver W T) (c : ConstraintId) (node : Constraint W T) (enabled : Bool) :
    Prop where
  /-- The constraint before. -/
  before : s.constraintAt? c = some node
  /-- The constraints afterwards. -/
  constraintAt : ∀ k, s'.constraintAt? k =
    if k = c then some { node with enabled := enabled, enforcing := none } else s.constraintAt? k

/-- Entering is a change of one constraint, which is enabled afterwards. -/
theorem Entered.reset (he : Entered s s' c node) : Reset s s' c node true :=
  ⟨he.before.1, he.constraintAt⟩

/-- Leaving is a change of one constraint, which is not enabled afterwards. -/
theorem Detached.reset (hd : Detached s s' c node) : Reset s s' c node false :=
  ⟨hd.before, hd.constraintAt⟩

section Reset

variable {enabled : Bool} {k : ConstraintId} {n : Constraint W T}
  (hr : Reset s s' c node enabled)
include hr

/-- The constraint itself has no method in force afterwards. -/
theorem Reset.constraintAt_self :
    s'.constraintAt? c = some { node with enabled := enabled, enforcing := none } :=
  (hr.constraintAt c).trans (if_pos rfl)

/-- All other constraints are as they were. -/
theorem Reset.constraintAt_ne (hk : k ≠ c) : s'.constraintAt? k = s.constraintAt? k :=
  (hr.constraintAt k).trans (if_neg hk)

/-- A constraint that is found afterwards is `c`, or was found before. -/
theorem Reset.found (hn : s'.constraintAt? k = some n) :
    (k = c ∧ n = { node with enabled := enabled, enforcing := none }) ∨
      (k ≠ c ∧ s.constraintAt? k = some n) := by
  by_cases hk : k = c
  · subst hk
    exact .inl ⟨rfl, Option.some.inj (hn.symm.trans hr.constraintAt_self)⟩
  · exact .inr ⟨hk, (hr.constraintAt_ne hk).symm.trans hn⟩

/-- The definitions stay. -/
theorem Reset.definition_of (hn : s'.constraintAt? k = some n) :
    ∃ n₀, s.constraintAt? k = some n₀ ∧ n.definition = n₀.definition := by
  obtain ⟨rfl, rfl⟩ | ⟨_, hn⟩ := hr.found hn
  · exact ⟨node, hr.before, rfl⟩
  · exact ⟨n, hn, rfl⟩

/-- The declarations stay, for constraints that exist and for those that do not. -/
theorem Reset.declared (k : ConstraintId) :
    (s'.constraintAt? k).map Constraint.declared =
      (s.constraintAt? k).map Constraint.declared := by
  by_cases hk : k = c
  · rw [hk, hr.constraintAt_self, hr.before]
    rfl
  · rw [hr.constraintAt_ne hk]

/-- A method that is in force afterwards is one of another constraint, which had it before. -/
theorem Reset.of_enforcing {i : Nat} (hn : s'.constraintAt? k = some n)
    (hi : n.enforcing = some i) : k ≠ c ∧ s.constraintAt? k = some n := by
  obtain ⟨_, rfl⟩ | hold := hr.found hn
  · cases hi
  · exact hold

/-- Afterwards `c` determines nothing, and everything else is determined as before. -/
theorem Reset.determines_iff (k : ConstraintId) (v : VarId) :
    s'.Determines k v ↔ k ≠ c ∧ s.Determines k v := by
  -- `c` has no method in force, and the others are as they were
  by_cases hk : k = c
  · subst hk
    exact iff_of_false (not_determines hr.constraintAt_self rfl v) fun h => h.1 rfl
  · unfold Determines
    rw [hr.constraintAt_ne hk]
    exact (and_iff_right hk).symm

/-- Incidence is as before, but for `c`, which is incident to its variables if it is enabled. -/
theorem Reset.incident_iff (k : ConstraintId) (v : VarId) :
    (∃ n, s'.constraintAt? k = some n ∧ n.enabled = true ∧ v ∈ n.definition.vars) ↔
      if k = c then enabled = true ∧ v ∈ node.definition.vars
      else ∃ n, s.constraintAt? k = some n ∧ n.enabled = true ∧ v ∈ n.definition.vars := by
  by_cases hk : k = c
  · rw [if_pos hk, hk, hr.constraintAt_self]
    simp
  · rw [if_neg hk, hr.constraintAt_ne hk]

end Reset

/-- A variable is not incident to a constraint that does not mention it. -/
theorem WellFormed.not_mem_incident (h : s.WellFormed) (hnode : s.constraintAt? c = some node)
    {v : VarId} {x : Variable T} (hx : s.variableAt? v = some x) (hv : v ∉ node.definition.vars) :
    c ∉ x.incident := by
  rw [h.incident hx]
  rintro ⟨n, hn, _, hmem⟩
  obtain rfl := Option.some.inj (hnode.symm.trans hn)
  exact hv hmem

/-! ### Entering the graph -/

/-- A constraint that is not enabled has no method in force, so nothing is determined differently when it
enters the graph. -/
theorem Entered.determines_iff (he : Entered s s' c node) (h : s.WellFormed) (k : ConstraintId)
    (v : VarId) : s'.Determines k v ↔ s.Determines k v := by
  obtain ⟨hnode, hoff⟩ := he.before
  have hidle : node.enforcing = none := by
    cases hi : node.enforcing with
    | none => rfl
    | some i => rw [(h.enforcing hnode hi).1] at hoff; cases hoff
  rw [he.reset.determines_iff]
  refine and_iff_right_of_imp fun hk => ?_
  rintro rfl
  exact not_determines hnode hidle v hk

/-- The structure is kept when a constraint enters the graph. -/
theorem WellFormed.entered (h : s.WellFormed) (he : Entered s s' c node) : s'.WellFormed := by
  refine ⟨h.toGrounded.of_declared he.reset.declared ?_, ?_, ?_, ?_⟩
  · intro v
    rw [he.variableAt, Option.isSome_map]
  · intro v x' hx' k
    rw [he.variableAt] at hx'
    obtain ⟨x, hx, rfl⟩ := Option.map_eq_some_iff.1 hx'
    -- the incidence set may have grown, and the determiner is the same
    rw [he.determines_iff h, ← h.determined hx k]
    split <;> rfl
  · intro k n i hn hi
    exact h.enforcing (he.reset.of_enforcing hn hi).2 hi
  · intro v x' hx' k
    rw [he.variableAt] at hx'
    obtain ⟨x, hx, rfl⟩ := Option.map_eq_some_iff.1 hx'
    rw [he.reset.incident_iff, ← h.incident hx k]
    -- the constraint that has entered is incident to exactly its variables
    by_cases hv : v ∈ node.definition.vars
    · by_cases hk : k = c
      · simp [hv, hk, OrderedSet.mem_insert]
      · simp [hv, hk, OrderedSet.mem_insert]
    · by_cases hk : k = c
      · simp [hv, hk, h.not_mem_incident he.before.1 hx hv]
      · simp [hv, hk]

/-- A constraint that has entered is idle. -/
theorem Entered.idle (he : Entered s s' c node) : s'.Idle c :=
  ⟨_, he.reset.constraintAt_self, rfl, rfl⟩

/-! ### Putting a method in force -/

section Installed

variable {mark : Mark} {i : Nat} {m : Method W T} {x : Variable T}

/-- The constraint itself has the method in force. -/
theorem Installed.constraintAt_self (hi : Installed s s' mark c node i m x) :
    s'.constraintAt? c = some { node with enforcing := some i } :=
  (hi.constraintAt c).trans (if_pos rfl)

/-- A constraint that is found after the installation is `c` with the method in force, or has been
displaced and lost its method, or is as it was. -/
theorem Installed.found (hi : Installed s s' mark c node i m x) {k : ConstraintId}
    {n' : Constraint W T} (hn' : s'.constraintAt? k = some n') :
    (k = c ∧ n' = { node with enforcing := some i }) ∨
      (k ≠ c ∧ x.determinedBy = some k ∧
        ∃ n, s.constraintAt? k = some n ∧ n' = { n with enforcing := none }) ∨
      (k ≠ c ∧ x.determinedBy ≠ some k ∧ s.constraintAt? k = some n') := by
  rw [hi.constraintAt] at hn'
  by_cases hk : k = c
  · rw [if_pos hk] at hn'
    exact .inl ⟨hk, (Option.some.inj hn').symm⟩
  · rw [if_neg hk] at hn'
    -- at most one constraint is displaced, the determiner of the output
    by_cases hdis : x.determinedBy = some k
    · rw [if_pos hdis] at hn'
      obtain ⟨n, hn, rfl⟩ := Option.map_eq_some_iff.1 hn'
      exact .inr (.inl ⟨hk, hdis, n, hn, rfl⟩)
    · rw [if_neg hdis] at hn'
      exact .inr (.inr ⟨hk, hdis, hn'⟩)

/-- After the installation `c` determines the output of its method. -/
theorem Installed.determines (hi : Installed s s' mark c node i m x) :
    s'.Determines c m.output := by
  refine ⟨_, hi.constraintAt_self, ?_⟩
  exact Constraint.output?_eq_some_iff.2 ⟨i, m, rfl, hi.method, rfl⟩

/-- After the installation every other variable is determined as before, and the output by `c`
alone. -/
theorem Installed.determines_iff (h : s.WellFormed) (hi : Installed s s' mark c node i m x)
    (k : ConstraintId) (v : VarId) :
    s'.Determines k v ↔ if v = m.output then k = c else s.Determines k v := by
  obtain ⟨hnode, _, hidle⟩ := hi.before
  obtain ⟨hx, _, _⟩ := hi.output
  by_cases hk : k = c
  · subst hk
    have hold := not_determines hnode hidle v
    by_cases hv : v = m.output
    · subst hv
      simpa using hi.determines
    · rw [if_neg hv]
      -- the only method of `c` in force is the installed one
      refine iff_of_false ?_ hold
      rintro ⟨n, hn, hout⟩
      obtain rfl := Option.some.inj (hi.constraintAt_self.symm.trans hn)
      obtain ⟨j, m', hj, hm', rfl⟩ := Constraint.output?_eq_some_iff.1 hout
      obtain rfl := Option.some.inj hj
      have hmm : some m' = some m := hm'.symm.trans hi.method
      exact hv (congrArg Method.output (Option.some.inj hmm))
  · by_cases hdis : x.determinedBy = some k
    · -- the displaced constraint determined the output and now determines nothing
      have hold := (h.determined hx k).1 hdis
      have hnew : ∀ u, ¬ s'.Determines k u := by
        intro u
        obtain ⟨n, hn, _⟩ := hold
        have hn' : s'.constraintAt? k = some { n with enforcing := none } := by
          rw [hi.constraintAt, if_neg hk, if_pos hdis, hn]
          rfl
        exact not_determines hn' rfl u
      by_cases hv : v = m.output
      · rw [if_pos hv]
        exact iff_of_false (hnew v) hk
      · rw [if_neg hv]
        refine iff_of_false (hnew v) ?_
        rintro ⟨n, hn, hout⟩
        obtain ⟨n', hn', hout'⟩ := hold
        rw [hn] at hn'
        obtain rfl := Option.some.inj hn'
        rw [hout] at hout'
        exact hv (Option.some.inj hout')
    · -- a constraint that was not displaced is as it was, and did not determine the output
      have hsame : s'.Determines k v ↔ s.Determines k v := by
        unfold Determines
        rw [hi.constraintAt, if_neg hk, if_neg hdis]
      rw [hsame]
      by_cases hv : v = m.output
      · rw [if_pos hv, hv, ← h.determined hx k]
        exact iff_of_false hdis hk
      · rw [if_neg hv]

/-- The constraints keep their definitions and whether they are enabled. -/
theorem Installed.constraint_of (hi : Installed s s' mark c node i m x) {k : ConstraintId}
    {n' : Constraint W T} (hn' : s'.constraintAt? k = some n') :
    ∃ n, s.constraintAt? k = some n ∧ n'.declared = n.declared ∧ n'.enabled = n.enabled := by
  obtain ⟨rfl, rfl⟩ | ⟨_, _, n, hn, rfl⟩ | ⟨_, _, hn⟩ := hi.found hn'
  · exact ⟨node, hi.before.1, rfl, rfl⟩
  · exact ⟨n, hn, rfl, rfl⟩
  · exact ⟨n', hn, rfl, rfl⟩

/-- The declarations stay. -/
theorem Installed.declared (hi : Installed s s' mark c node i m x) (k : ConstraintId) :
    (s'.constraintAt? k).map Constraint.declared = (s.constraintAt? k).map Constraint.declared := by
  rw [hi.constraintAt]
  by_cases hk : k = c
  · rw [if_pos hk, hk, hi.before.1]
    rfl
  · rw [if_neg hk]
    by_cases hdis : x.determinedBy = some k
    · rw [if_pos hdis, Option.map_map]
      rfl
    · rw [if_neg hdis]

/-- The structure is kept when a method is put in force. -/
theorem WellFormed.installed (h : s.WellFormed) (hi : Installed s s' mark c node i m x) :
    s'.WellFormed := by
  refine ⟨h.toGrounded.of_declared hi.declared ?_, ?_, ?_, ?_⟩
  · intro v
    rw [hi.variableAt, Option.isSome_map]
  · intro v y' hy' k
    rw [hi.variableAt] at hy'
    obtain ⟨y, hy, rfl⟩ := Option.map_eq_some_iff.1 hy'
    rw [hi.determines_iff h]
    -- only at the output has the determiner changed
    by_cases hv : v = m.output
    · simp only [if_pos hv, Option.some.injEq]
      exact eq_comm
    · simp only [if_neg hv]
      exact h.determined hy k
  · intro k n j hn hj
    obtain ⟨rfl, rfl⟩ | ⟨_, _, n, _, rfl⟩ | ⟨_, _, hn⟩ := hi.found hn
    · obtain rfl := Option.some.inj hj
      exact ⟨hi.before.2.1, (List.getElem?_eq_some_iff.1 hi.method).1⟩
    · -- a displaced constraint has no method in force to speak of
      cases hj
    · exact h.enforcing hn hj
  · intro v y' hy' k
    rw [hi.variableAt] at hy'
    obtain ⟨y, hy, rfl⟩ := Option.map_eq_some_iff.1 hy'
    -- incidence is a matter of definitions and enabled flags, which have not changed
    rw [h.incident hy]
    constructor
    · rintro ⟨n, hn, hen, hv⟩
      have hd := hi.declared k
      rw [hn, Option.map_some] at hd
      obtain ⟨n', hn', _⟩ := Option.map_eq_some_iff.1 hd
      obtain ⟨n₀, hn₀, hde, hee⟩ := hi.constraint_of hn'
      rw [hn] at hn₀
      obtain rfl := Option.some.inj hn₀
      simp only [Constraint.declared, Prod.mk.injEq] at hde
      exact ⟨n', hn', hee.trans hen, hde.1 ▸ hv⟩
    · rintro ⟨n', hn', hen, hv⟩
      obtain ⟨n, hn, hde, hee⟩ := hi.constraint_of hn'
      simp only [Constraint.declared, Prod.mk.injEq] at hde
      exact ⟨n, hn, hee.symm.trans hen, hde.1 ▸ hv⟩

/-- The displaced constraint stays in the graph, without a method in force. -/
theorem Installed.displaced_idle (h : s.WellFormed) (hi : Installed s s' mark c node i m x)
    {k : ConstraintId} (hk : x.determinedBy = some k) : s'.Idle k := by
  obtain ⟨hx, _, _⟩ := hi.output
  obtain ⟨n, hn, hout⟩ := (h.determined hx k).1 hk
  obtain ⟨j, _, hj, _, _⟩ := Constraint.output?_eq_some_iff.1 hout
  -- the constraint itself was idle, so it is not the one that is displaced
  have hne : k ≠ c := by
    rintro rfl
    exact not_determines hi.before.1 hi.before.2.2 _ ⟨n, hn, hout⟩
  refine ⟨{ n with enforcing := none }, ?_, (h.enforcing hn hj).1, rfl⟩
  rw [hi.constraintAt, if_neg hne, if_pos hk, hn]
  rfl

end Installed

/-! ### Leaving the graph -/

/-- The constraint determines nothing any more, and all else is determined as before. -/
theorem Detached.determines_iff (hd : Detached s s' c node) (k : ConstraintId) (v : VarId) :
    s'.Determines k v ↔ k ≠ c ∧ s.Determines k v :=
  hd.reset.determines_iff k v

/-- A constraint that is enabled after `c` has left is another one and is as it was. -/
theorem Detached.of_enabled (hd : Detached s s' c node) {k : ConstraintId} {n : Constraint W T}
    (hn : s'.constraintAt? k = some n) (hen : n.enabled = true) :
    k ≠ c ∧ s.constraintAt? k = some n := by
  obtain ⟨_, rfl⟩ | hold := hd.reset.found hn
  · cases hen
  · exact hold

/-- What is recorded as the determiner of a variable after `c` has left. -/
theorem Detached.determinedBy_iff (h : s.WellFormed) (hd : Detached s s' c node) {v : VarId}
    {x x' : Variable T} (hx : s.variableAt? v = some x) (hx' : s'.variableAt? v = some x')
    (k : ConstraintId) : x'.determinedBy = some k ↔ k ≠ c ∧ x.determinedBy = some k := by
  rw [hd.variableAt, hx] at hx'
  obtain rfl := Option.some.inj hx'
  by_cases hout : node.output? = some v
  · -- the vacated output was determined by `c` alone
    have hc := (h.determined hx c).2 ⟨node, hd.before, hout⟩
    simp only [if_pos hout, Variable.release, reduceCtorEq, false_iff]
    rintro ⟨hk, hxk⟩
    exact hk (Option.some.inj (hxk.symm.trans hc))
  · -- another variable keeps its determiner, which is not `c`
    have hc : x.determinedBy ≠ some c := by
      intro hc
      obtain ⟨n, hn, hv⟩ := (h.determined hx c).1 hc
      obtain rfl := Option.some.inj (hd.before.symm.trans hn)
      exact hout hv
    have hsame : (if v ∈ node.definition.vars then
        { x with incident := x.incident.erase c } else x).determinedBy = x.determinedBy := by
      split <;> rfl
    simp only [if_neg hout, hsame]
    refine (and_iff_right_of_imp fun hk => ?_).symm
    rintro rfl
    exact hc hk

/-- What a variable is incident to after `c` has left. -/
theorem Detached.mem_incident_iff (h : s.WellFormed) (hd : Detached s s' c node) {v : VarId}
    {x x' : Variable T} (hx : s.variableAt? v = some x) (hx' : s'.variableAt? v = some x')
    (k : ConstraintId) : k ∈ x'.incident ↔ k ≠ c ∧ k ∈ x.incident := by
  rw [hd.variableAt, hx] at hx'
  obtain rfl := Option.some.inj hx'
  -- releasing the output does not touch its incidence set
  have hrelease : ∀ y : Variable T, (if node.output? = some v then y.release else y).incident =
      y.incident := by
    intro y
    split <;> rfl
  simp only [hrelease]
  by_cases hv : v ∈ node.definition.vars
  · rw [if_pos hv, OrderedSet.mem_erase]
  · rw [if_neg hv]
    refine (and_iff_right_of_imp fun hk => ?_).symm
    rintro rfl
    exact h.not_mem_incident hd.before hx hv hk

/-- The structure is kept when a constraint leaves the graph. -/
theorem WellFormed.detached (h : s.WellFormed) (hd : Detached s s' c node) : s'.WellFormed := by
  have hlive : ∀ v, (s'.variableAt? v).isSome = (s.variableAt? v).isSome := by
    intro v
    rw [hd.variableAt, Option.isSome_map]
  have hvar : ∀ {v x'}, s'.variableAt? v = some x' → ∃ x, s.variableAt? v = some x :=
    fun {v _} hx' => Option.isSome_iff_exists.1 ((hlive v).symm.trans (hx' ▸ rfl))
  -- each record has lost `c` and nothing else
  refine ⟨h.toGrounded.of_declared hd.reset.declared hlive, ?_, ?_, ?_⟩
  · intro v x' hx' k
    obtain ⟨x, hx⟩ := hvar hx'
    rw [hd.determinedBy_iff h hx hx', hd.determines_iff, h.determined hx]
  · intro k n i hn hi
    exact h.enforcing (hd.reset.of_enforcing hn hi).2 hi
  · intro v x' hx' k
    obtain ⟨x, hx⟩ := hvar hx'
    rw [hd.mem_incident_iff h hx hx', hd.reset.incident_iff, h.incident hx]
    by_cases hk : k = c
    · simp [hk]
    · simp [hk]

end Solver

end DeltaBlue
