import DeltaBlue.Recalculation

/-!
# What holds when an operation has finished

`Ensures op m Q` says that if `op` finishes on the machine `m`, then its result and the machine
after it satisfy `Q`, whether it succeeded or failed. The lemmas `ensures_*` reduce the statement
for an operation to statements for its parts, so that a proof follows the text of the operation.

`Preserves J op` says that `op` keeps the condition `J` on the machine. `Obeys ρ op` says that
whatever machine `op` is run on, the solver before and the solver after stand in the relation `ρ`. For
a reflexive and transitive relation it is enough that every part obeys it.
-/

namespace DeltaBlue

namespace SolveM

variable {W T α β : Type}

/-- What is followed by something else succeeds if both do. -/
theorem exec_bind_eq_ok {op : SolveM W T α} {f : α → SolveM W T β} {m m' : Machine W T} {b : β} :
    exec (op >>= f) m = some (.ok b, m') ↔
      ∃ a m₁, exec op m = some (.ok a, m₁) ∧ exec (f a) m₁ = some (.ok b, m') := by
  rw [exec_bind]
  -- the first does not finish, fails, or hands a value on
  cases exec op m with
  | none => simp
  | some p =>
    obtain ⟨r, m₁⟩ := p
    cases r with
    | error e => simp
    | ok a =>
      simp only [Option.some.injEq, Prod.mk.injEq, Except.ok.injEq]
      constructor
      · exact fun h => ⟨a, m₁, ⟨rfl, rfl⟩, h⟩
      · rintro ⟨_, _, ⟨rfl, rfl⟩, h⟩
        exact h

/-- If the operation finishes on `m`, its result and the machine after it satisfy `Q`. -/
def Ensures (op : SolveM W T α) (m : Machine W T)
    (Q : Except SolveError α → Machine W T → Prop) : Prop :=
  ∀ r m', exec op m = some (r, m') → Q r m'

variable {m : Machine W T} {Q : Except SolveError α → Machine W T → Prop}

/-- What follows from something ensured is ensured too. -/
theorem Ensures.mono {op : SolveM W T α} {P : Except SolveError α → Machine W T → Prop}
    (h : Ensures op m P) (hPQ : ∀ r m', P r m' → Q r m') : Ensures op m Q :=
  fun r m' hr => hPQ r m' (h r m' hr)

/-- Two things that are ensured are ensured together. -/
theorem Ensures.and {op : SolveM W T α} {P : Except SolveError α → Machine W T → Prop}
    (hP : Ensures op m P) (hQ : Ensures op m Q) : Ensures op m fun r m' => P r m' ∧ Q r m' :=
  fun r m' hr => ⟨hP r m' hr, hQ r m' hr⟩

/-- An operation has one result, so what it ensures is what holds of this result. -/
theorem ensures_of_exec {op : SolveM W T α} {r : Except SolveError α} {m' : Machine W T}
    (h : exec op m = some (r, m')) : Ensures op m Q ↔ Q r m' := by
  constructor
  · intro hQ
    exact hQ r m' h
  · intro hQ r₁ m₁ h₁
    rw [h] at h₁
    obtain ⟨rfl, rfl⟩ := Prod.mk.inj (Option.some.inj h₁)
    exact hQ

/-- Returning a value changes nothing. -/
@[simp] theorem ensures_pure (a : α) : Ensures (pure a) m Q ↔ Q (.ok a) m :=
  ensures_of_exec (exec_pure a m)

/-- Failing changes nothing. -/
@[simp] theorem ensures_throw (e : SolveError) : Ensures (throw e) m Q ↔ Q (.error e) m :=
  ensures_of_exec (exec_throw e m)

/-- What does not finish ensures everything. -/
@[simp] theorem ensures_unfinished : Ensures unfinished m Q :=
  fun _ _ h => nomatch h

/-- What the second operation ensures need only be shown after the first has succeeded; the failure
of the first is the failure of both. -/
@[simp] theorem ensures_bind (op : SolveM W T α) (f : α → SolveM W T β)
    {Q : Except SolveError β → Machine W T → Prop} :
    Ensures (op >>= f) m Q ↔ Ensures op m fun r m' =>
      match r with
      | .ok a => Ensures (f a) m' Q
      | .error e => Q (.error e) m' := by
  unfold Ensures
  rw [exec_bind]
  -- both sides follow the first operation: it does not finish, succeeds or fails
  cases h : exec op m with
  | none => simp
  | some p =>
    obtain ⟨r, m'⟩ := p
    cases r with
    | ok a => simp
    | error e => simp

/-- The failure of an attempt is a value. -/
@[simp] theorem ensures_attempt (op : SolveM W T α)
    {Q : Except SolveError (Except SolveError α) → Machine W T → Prop} :
    Ensures (attempt op) m Q ↔ Ensures op m fun r m' => Q (.ok r) m' := by
  unfold Ensures
  rw [exec_attempt]
  cases h : exec op m with
  | none => simp
  | some p =>
    obtain ⟨r, m'⟩ := p
    simp

/-- A look-up that may fail changes nothing. -/
@[simp] theorem ensures_query (f : Solver W T → Except SolveError α) :
    Ensures (query f) m Q ↔ Q (f m.solver) m :=
  ensures_of_exec (exec_query f m)

/-- A look-up changes nothing. -/
@[simp] theorem ensures_ask (f : Solver W T → α) :
    Ensures (ask f) m Q ↔ Q (.ok (f m.solver)) m :=
  ensures_of_exec (exec_ask f m)

/-- A change of the solver succeeds. -/
@[simp] theorem ensures_update (f : Solver W T → Solver W T)
    {Q : Except SolveError Unit → Machine W T → Prop} :
    Ensures (update f) m Q ↔ Q (.ok ()) { m with solver := f m.solver } :=
  ensures_of_exec (exec_update f m)

/-- Writing into the journal succeeds. -/
@[simp] theorem ensures_note (n : Notice T) {Q : Except SolveError Unit → Machine W T → Prop} :
    Ensures (note n) m Q ↔ Q (.ok ()) { m with journal := n :: m.journal } :=
  ensures_of_exec (exec_note n m)

/-- Counting succeeds and touches nothing but the work counters. -/
@[simp] theorem ensures_count (f : Metrics → Metrics)
    {Q : Except SolveError Unit → Machine W T → Prop} :
    Ensures (count f) m Q ↔
      Q (.ok ()) { m with solver := { m.solver with metrics := f m.solver.metrics } } :=
  ensures_update _

/-- Looking a variable up fails if there is none, and changes nothing. -/
@[simp] theorem ensures_getVariable (v : VarId)
    {Q : Except SolveError (Variable T) → Machine W T → Prop} :
    Ensures (getVariable v) m Q ↔ Q (m.solver.lookupVariable v) m :=
  ensures_query _

/-- Looking a constraint up fails if there is none, and changes nothing. -/
@[simp] theorem ensures_getConstraint (c : ConstraintId)
    {Q : Except SolveError (Constraint W T) → Machine W T → Prop} :
    Ensures (getConstraint c) m Q ↔ Q (m.solver.lookupConstraint c) m :=
  ensures_query _

/-- A change of a variable fails if there is no such variable. -/
@[simp] theorem ensures_changeVariable (v : VarId) (f : Variable T → Variable T)
    {Q : Except SolveError Unit → Machine W T → Prop} :
    Ensures (changeVariable v f) m Q ↔
      match m.solver.variableAt? v with
      | some _ => Q (.ok ()) { m with solver := m.solver.modifyVariable v f }
      | none => Q (.error (.unknownVariable v)) m := by
  unfold changeVariable
  cases h : m.solver.variableAt? v <;> simp [Solver.lookupVariable, h]

/-- A change of a constraint fails if there is no such constraint. -/
@[simp] theorem ensures_changeConstraint (c : ConstraintId) (f : Constraint W T → Constraint W T)
    {Q : Except SolveError Unit → Machine W T → Prop} :
    Ensures (changeConstraint c f) m Q ↔
      match m.solver.constraintAt? c with
      | some _ => Q (.ok ()) { m with solver := m.solver.modifyConstraint c f }
      | none => Q (.error (.unknownConstraint c)) m := by
  unfold changeConstraint
  cases h : m.solver.constraintAt? c <;> simp [Solver.lookupConstraint, h]

/-- A look-up of a variable that exists. -/
theorem Ensures.getVariable {v : VarId} {x : Variable T}
    {Q : Except SolveError (Variable T) → Machine W T → Prop}
    (hx : m.solver.variableAt? v = some x) (hQ : Q (.ok x) m) : Ensures (getVariable v) m Q := by
  rw [ensures_getVariable, Solver.lookupVariable, hx]
  exact hQ

/-- A look-up of a constraint that exists. -/
theorem Ensures.getConstraint {c : ConstraintId} {x : Constraint W T}
    {Q : Except SolveError (Constraint W T) → Machine W T → Prop}
    (hx : m.solver.constraintAt? c = some x) (hQ : Q (.ok x) m) :
    Ensures (getConstraint c) m Q := by
  rw [ensures_getConstraint, Solver.lookupConstraint, hx]
  exact hQ

/-- A change of a variable that exists. -/
theorem Ensures.changeVariable {v : VarId} {x : Variable T} {f : Variable T → Variable T}
    {Q : Except SolveError Unit → Machine W T → Prop} (hx : m.solver.variableAt? v = some x)
    (hQ : Q (.ok ()) { m with solver := m.solver.modifyVariable v f }) :
    Ensures (changeVariable v f) m Q := by
  rw [ensures_changeVariable, hx]
  exact hQ

/-- A change of a constraint that exists. -/
theorem Ensures.changeConstraint {c : ConstraintId} {x : Constraint W T}
    {f : Constraint W T → Constraint W T} {Q : Except SolveError Unit → Machine W T → Prop}
    (hx : m.solver.constraintAt? c = some x)
    (hQ : Q (.ok ()) { m with solver := m.solver.modifyConstraint c f }) :
    Ensures (changeConstraint c f) m Q := by
  rw [ensures_changeConstraint, hx]
  exact hQ

/-- Running a method changes nothing but the world. -/
theorem ensures_runOn (x : Method W T) (values : Except FormulaError (List T))
    {Q : Except SolveError (Outcome T) → Machine W T → Prop} :
    Ensures (runOn x values) m Q ↔
      match values with
      | .error cause => Q (.ok (.fail cause)) m
      | .ok values =>
        Q (.ok (x.run values m.world).1) { m with world := (x.run values m.world).2 } := by
  cases values with
  | error cause => exact ensures_pure _
  | ok values => exact ensures_of_exec rfl

/-! ## Conditions on the machine -/

/-- The operation keeps a condition on the machine, whatever comes of it. -/
def Preserves (J : Machine W T → Prop) (op : SolveM W T α) : Prop :=
  ∀ m, J m → Ensures op m fun _ m' => J m'

namespace Preserves

variable {J : Machine W T → Prop}

/-- A value is returned on the same machine. -/
theorem pure (a : α) : Preserves J (pure a : SolveM W T α) := fun _ h => (ensures_pure a).2 h

/-- A look-up that may fail leaves the machine as it is. -/
theorem query (f : Solver W T → Except SolveError α) : Preserves J (query f) :=
  fun _ h => (ensures_query f).2 h

/-- A look-up leaves the machine as it is. -/
theorem ask (f : Solver W T → α) : Preserves J (ask f) := fun _ h => (ensures_ask f).2 h

/-- Looking a variable up leaves the machine as it is. -/
theorem getVariable (v : VarId) : Preserves (W := W) (T := T) J (getVariable v) := query _

/-- Looking a constraint up leaves the machine as it is. -/
theorem getConstraint (c : ConstraintId) : Preserves (W := W) (T := T) J (getConstraint c) := query _

/-- What does not finish breaks no condition. -/
theorem unfinished : Preserves J (unfinished : SolveM W T α) := fun _ _ => ensures_unfinished

/-- Two operations that keep a condition keep it one after the other. -/
theorem bind {op : SolveM W T α} {f : α → SolveM W T β} (hop : Preserves J op)
    (hf : ∀ a, Preserves J (f a)) : Preserves J (op >>= f) := by
  intro m h
  rw [ensures_bind]
  refine (hop m h).mono fun r m' h' => ?_
  -- the second operation runs only if the first succeeds
  cases r with
  | ok a => exact hf a m' h'
  | error e => exact h'

/-- A loop keeps what each of its rounds keeps. -/
theorem forM {l : List β} {f : β → SolveM W T PUnit} (hf : ∀ b ∈ l, Preserves J (f b)) :
    Preserves J (l.forM f) := by
  induction l with
  | nil => exact pure _
  | cons b l ih =>
    exact bind (hf b List.mem_cons_self) fun _ => ih fun b hb => hf b (List.mem_cons_of_mem _ hb)

end Preserves

/-! ## Relations between the solver before and the solver after -/

/-- A relation between solvers that holds of no change at all and of one change after another. -/
structure Transitive (ρ : Solver W T → Solver W T → Prop) : Prop where
  /-- Nothing changes. -/
  refl : ∀ s, ρ s s
  /-- One change follows another. -/
  trans : ∀ {s s' s''}, ρ s s' → ρ s' s'' → ρ s s''

/-- Whatever machine the operation is run on, the solvers before and after it stand in `ρ`. -/
def Obeys (ρ : Solver W T → Solver W T → Prop) (op : SolveM W T α) : Prop :=
  ∀ m, Ensures op m fun _ m' => ρ m.solver m'.solver

namespace Obeys

variable {ρ : Solver W T → Solver W T → Prop} (hρ : Transitive ρ)
include hρ

/-- Returning a value is no change. -/
theorem pure (a : α) : Obeys ρ (pure a : SolveM W T α) := fun _ => (ensures_pure a).2 (hρ.refl _)

/-- A failure by itself changes nothing. -/
theorem throw (e : SolveError) : Obeys ρ (throw e : SolveM W T α) :=
  fun _ => (ensures_throw e).2 (hρ.refl _)

/-- A look-up that may fail is no change. -/
theorem query (f : Solver W T → Except SolveError α) : Obeys ρ (query f) :=
  fun _ => (ensures_query f).2 (hρ.refl _)

/-- A look-up is no change. -/
theorem ask (f : Solver W T → α) : Obeys ρ (ask f) := fun _ => (ensures_ask f).2 (hρ.refl _)

/-- The journal is no part of the solver. -/
theorem note (n : Notice T) : Obeys (W := W) ρ (note n) :=
  fun _ => (ensures_note n).2 (hρ.refl _)

/-- Looking a variable up is no change. -/
theorem getVariable (v : VarId) : Obeys ρ (getVariable v) := query hρ _

/-- Looking a constraint up is no change. -/
theorem getConstraint (c : ConstraintId) : Obeys ρ (getConstraint c) := query hρ _

/-- Running a method touches the world, and no part of the solver. -/
theorem runOn (x : Method W T) (values : Except FormulaError (List T)) :
    Obeys ρ (runOn x values) := by
  intro m
  rw [ensures_runOn]
  cases values <;> exact hρ.refl _

omit hρ in
/-- What does not finish has no solver after it. -/
theorem unfinished : Obeys ρ (unfinished : SolveM W T α) := fun _ => ensures_unfinished

omit hρ in
/-- A change of the solver obeys every relation that it brings about. -/
theorem update {f : Solver W T → Solver W T} (h : ∀ s, ρ s (f s)) : Obeys ρ (update f) :=
  fun m => (ensures_update f).2 (h m.solver)

/-- If both operations obey a transitive relation, so do they one after the other. -/
theorem bind {op : SolveM W T α} {f : α → SolveM W T β} (hop : Obeys ρ op)
    (hf : ∀ a, Obeys ρ (f a)) : Obeys ρ (op >>= f) := by
  intro m
  rw [ensures_bind]
  refine (hop m).mono ?_
  intro r m' hm
  cases r with
  | ok a => exact (hf a m').mono fun _ _ h => hρ.trans hm h
  | error e => exact hm

omit hρ in
/-- An attempt changes what the operation changes. -/
theorem attempt {op : SolveM W T α} (hop : Obeys ρ op) : Obeys ρ (attempt op) :=
  fun m => (ensures_attempt op).2 (hop m)

/-- Nothing is changed where there is no such variable. -/
theorem changeVariable {v : VarId} {f : Variable T → Variable T}
    (h : ∀ s, ρ s (s.modifyVariable v f)) : Obeys ρ (changeVariable v f) :=
  bind hρ (getVariable hρ v) fun _ => update h

/-- Nothing is changed where there is no such constraint. -/
theorem changeConstraint {c : ConstraintId} {f : Constraint W T → Constraint W T}
    (h : ∀ s, ρ s (s.modifyConstraint c f)) : Obeys ρ (changeConstraint c f) :=
  bind hρ (getConstraint hρ c) fun _ => update h

/-- A loop obeys a transitive relation that each of its rounds obeys. -/
theorem forM {l : List β} {f : β → SolveM W T PUnit} (hf : ∀ b, Obeys ρ (f b)) :
    Obeys ρ (l.forM f) := by
  induction l with
  | nil => exact pure hρ _
  | cons b l ih => exact bind hρ (hf b) fun _ => ih

/-- To obey a relation is to keep the condition of standing in the relation to any solver. -/
theorem iff_preserves {op : SolveM W T α} :
    Obeys ρ op ↔ ∀ s, Preserves (fun m => ρ s m.solver) op :=
  -- from right to left, the solver to stand in the relation to is the one at the start
  ⟨fun h _ m hm => (h m).mono fun _ _ h' => hρ.trans hm h', fun h m => h m.solver m (hρ.refl _)⟩

end Obeys

end SolveM

namespace Solver

variable {W T : Type} {s : Solver W T}

/-- A variable that exists is found. -/
theorem lookupVariable_eq_ok {v : VarId} {x : Variable T} (h : s.variableAt? v = some x) :
    s.lookupVariable v = .ok x := by
  rw [lookupVariable, h]

/-- A constraint that exists is found. -/
theorem lookupConstraint_eq_ok {c : ConstraintId} {x : Constraint W T}
    (h : s.constraintAt? c = some x) : s.lookupConstraint c = .ok x := by
  rw [lookupConstraint, h]

end Solver

end DeltaBlue
