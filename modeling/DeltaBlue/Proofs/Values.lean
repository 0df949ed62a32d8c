import DeltaBlue.Proofs.Runs

/-!
# Values

The cell of a constant output is what a run of the method in force makes of the cells of its inputs.
The poison of the first input without a value, in the order in which the method lists them, is passed
on; an input that was never assigned is named. With all inputs assigned, a computation that is a
function of its inputs alone gives the value or the cause of its failure, whenever it is run.
-/

namespace DeltaBlue

/-- The computation is a function of its inputs alone. -/
def Compute.Pure {W T : Type} (f : Compute W T) : Prop :=
  ∀ values w w', (f values w).1 = (f values w').1

/-- Why a cell gives no value to computations, if it gives none. -/
def Cell.fault? {T : Type} (v : VarId) : Cell T → Option FormulaError
  | .unassigned => some (.unassignedInput v)
  | .assigned _ => none
  | .poisoned cause => some cause

section Gathering

variable {T : Type} {cell : VarId → Cell T} {v : VarId}

/-- The first variable without a value decides. -/
theorem valuesFrom_first_fault {cause : FormulaError} {before after : List VarId}
    (hbefore : ∀ u ∈ before, (cell u).isAssigned = true) (hv : (cell v).fault? v = some cause) :
    valuesFrom cell (before ++ v :: after) = .error cause := by
  -- along the inputs before the first one without a value, all of which are passed over
  induction before with
  | nil =>
    rw [List.nil_append, valuesFrom]
    cases hcell : cell v with
    | unassigned =>
      rw [hcell] at hv
      exact congrArg _ (Option.some.inj hv)
    | assigned value => rw [hcell] at hv; cases hv
    | poisoned c =>
      rw [hcell] at hv
      exact congrArg _ (Option.some.inj hv)
  | cons u before ih =>
    have hu := hbefore u List.mem_cons_self
    rw [List.cons_append, valuesFrom, ih fun w hw => hbefore w (List.mem_cons_of_mem u hw)]
    cases hcell : cell u with
    | assigned value => rfl
    | _ => rw [hcell] at hu; cases hu

/-- Variables that are all assigned give their values, in order. -/
theorem valuesFrom_assigned {vs : List VarId} {values : List T}
    (h : vs.map cell = values.map .assigned) : valuesFrom cell vs = .ok values := by
  induction vs generalizing values with
  | nil =>
    obtain rfl := List.map_eq_nil_iff.1 h.symm
    rfl
  | cons v vs ih =>
    obtain ⟨value, rest, rfl, hvalue, hrest⟩ := List.map_eq_cons_iff.1 h.symm
    rw [valuesFrom, ← hvalue, ih hrest.symm]
    rfl

/-- Variables that give values are all assigned. -/
theorem map_of_valuesFrom {vs : List VarId} {values : List T}
    (h : valuesFrom cell vs = .ok values) : vs.map cell = values.map .assigned := by
  induction vs generalizing values with
  | nil =>
    obtain rfl := Except.ok.inj h
    rfl
  | cons v vs ih =>
    unfold valuesFrom at h
    cases hv : cell v with
    | assigned value =>
      rw [hv] at h
      cases hrest : valuesFrom cell vs with
      | error cause =>
        rw [hrest] at h
        cases h
      | ok rest =>
        rw [hrest] at h
        obtain rfl := Except.ok.inj h
        rw [List.map_cons, hv, ih hrest, List.map_cons]
    | _ =>
      rw [hv] at h
      cases h

end Gathering

section Yields

variable {W T : Type} {method : Method W T} {cell : Cell T}

/-- An edit yields its value, since it has no inputs that might want one. -/
theorem Method.Yields.edit {value : T} (hedit : method.action = .edit value)
    {f : VarId → Cell T} (h : method.Yields (valuesFrom f method.inputs) cell) :
    cell = .assigned value := by
  rw [method.inputs_nil (by rw [hedit]; rfl)] at h
  obtain ⟨w, hw⟩ := h
  simp only [run, hedit] at hw
  exact hw

/-- A computation that is a function of its inputs alone yields what it gives for their values in
any world. -/
theorem Method.Yields.compute {f : Compute W T} {values : List T}
    (hcompute : method.action = .compute f) (hpure : f.Pure)
    (hlength : values.length = method.inputs.length) (h : method.Yields (.ok values) cell) (w : W) :
    cell = .ofExcept (f values w).1 := by
  obtain ⟨w', hw⟩ := h
  simp only [run, hcompute, if_pos hlength] at hw
  -- the world of that run need not be the one given
  rw [hpure values w w']
  cases hresult : (f values w').1 with
  | ok value =>
    simp only [hresult, outcomeOf] at hw
    exact hw
  | error cause =>
    simp only [hresult, outcomeOf] at hw
    exact hw

/-- If the method does not compute, or its computation is a function of its inputs alone, the cell is
what a run in any world stores. -/
theorem Method.Yields.store {values : Except FormulaError (List T)} (h : method.Yields values cell)
    (hpure : ∀ f, method.action = .compute f → f.Pure) (w : W) :
    cell = (method.runOn values w).1.store cell := by
  cases values with
  | error cause => exact h
  | ok values =>
    obtain ⟨w', h⟩ := h
    -- the two worlds make no difference to the outcome
    have hsame : (method.run values w).1 = (method.run values w').1 := by
      unfold run
      cases haction : method.action with
      | compute f =>
        simp only
        split
        · exact congrArg outcomeOf (hpure f haction values w w')
        · rfl
      | _ => rfl
    change cell = (method.run values w).1.store cell
    rw [hsame]
    unfold Outcome.store
    split
    · next heq => rw [heq] at h; exact h
    · rfl
    · next heq => rw [heq] at h; exact h

end Yields

namespace Run

variable {W T : Type} {config : Config} {plans : List (Plan × Nat)} {m : Machine W T}

end Run

end DeltaBlue
