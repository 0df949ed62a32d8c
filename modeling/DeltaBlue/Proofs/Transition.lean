import DeltaBlue.Proofs.Structure

/-!
# The operations as changes of the graph

What registering, installing and withdrawing do, in the words of `Entered`, `Installed` and
`Detached`. Later proofs use these lemmas and do not open the operations.
-/

namespace DeltaBlue

namespace Solver

variable {W T : Type} {s : Solver W T} {mark : Mark}

/-- A constraint may use the method in the pass: its output is unclaimed and held more weakly than
the constraint insists. -/
def Usable (s : Solver W T) (mark : Mark) (d : Definition W T) (m : Method W T) : Prop :=
  ∃ x, s.variableAt? m.output = some x ∧ x.mark ≠ mark ∧ x.walkStrength < d.strength

/-- Another output that is claimed or held strongly enough may be added. -/
theorem HeldBy.cons {ms : List (Method W T)} {held : Strength} {m : Method W T} {x : Variable T}
    (h : s.HeldBy mark ms held) (hx : s.variableAt? m.output = some x)
    (hle : x.mark ≠ mark → held ≤ x.walkStrength) : s.HeldBy mark (m :: ms) held := by
  intro m' hm' x' hx' hmark
  rcases List.mem_cons.1 hm' with rfl | hm'
  · obtain rfl := Option.some.inj (hx.symm.trans hx')
    exact hle hmark
  · exact h m' hm' x' hx' hmark

/-- A constraint may use no method if the unclaimed outputs are held at least as strongly as it
insists. -/
theorem HeldBy.not_usable {d : Definition W T} {m : Method W T}
    (h : s.HeldBy mark d.methods d.strength) (hm : m ∈ d.methods) : ¬ s.Usable mark d m := by
  rintro ⟨x, hx, hmark, hlt⟩
  exact Nat.not_lt.2 (h m hm x hx hmark) hlt

/-- The head of the list is chosen for the time being if its output is free and held more weakly
than the bound, and then it is the new bound. -/
theorem weakestMethodFrom_cons {ms : List (Method W T)} {start : Nat} {bound : Strength}
    {chosen : Option Nat} {m : Method W T} {x : Variable T} (hx : s.variableAt? m.output = some x) :
    s.weakestMethodFrom mark (m :: ms) start bound chosen =
      if x.mark ≠ mark ∧ x.walkStrength < bound then
        s.weakestMethodFrom mark ms (start + 1) x.walkStrength (some start)
      else s.weakestMethodFrom mark ms (start + 1) bound chosen := by
  rw [weakestMethodFrom, lookupVariable_eq_ok hx]
  rfl

/-- A method that is chosen from a list has an output that is unclaimed in the pass and held more
weakly than the bound, and no unclaimed output is held more weakly still. -/
theorem weakestMethodFrom_eq_some {ms : List (Method W T)} {start : Nat} {bound : Strength}
    {chosen : Option Nat} {i : Nat}
    (h : s.weakestMethodFrom mark ms start bound chosen = .ok (some i)) :
    (chosen = some i ∧ s.HeldBy mark ms bound) ∨
      ∃ j m x, i = start + j ∧ ms[j]? = some m ∧ s.variableAt? m.output = some x ∧
        x.mark ≠ mark ∧ x.walkStrength < bound ∧ s.HeldBy mark ms x.walkStrength := by
  induction ms generalizing start bound chosen with
  | nil => exact .inl ⟨Except.ok.inj h, fun m hm => absurd hm List.not_mem_nil⟩
  | cons m ms ih =>
    cases hx : s.variableAt? m.output with
    | none =>
      unfold weakestMethodFrom lookupVariable at h
      rw [hx] at h
      cases h
    | some x =>
      rw [weakestMethodFrom_cons hx] at h
      split at h
      · next hfree =>
        -- the method at hand is chosen, unless a later one is held more weakly still
        rcases ih h with ⟨hi, hheld⟩ | ⟨j, m', x', hi, hm', hx', hmark, hlt, hheld⟩
        · exact .inr ⟨0, m, x, by simpa using hi.symm, rfl, hx, hfree.1, hfree.2,
            hheld.cons hx fun _ => Nat.le_refl _⟩
        · refine .inr ⟨j + 1, m', x', by omega, hm', hx', hmark, ?_,
            hheld.cons hx fun _ => Nat.le_of_lt hlt⟩
          exact Nat.lt_trans ((Strength.lt_def _ _).1 hlt) hfree.2
      · next hfree =>
        -- the method at hand is claimed or held at least as strongly as the bound
        have hle : x.mark ≠ mark → bound ≤ x.walkStrength :=
          fun hmark => Nat.le_of_not_lt fun hlt => hfree ⟨hmark, hlt⟩
        rcases ih h with ⟨hi, hheld⟩ | ⟨j, m', x', hi, hm', hx', hmark, hlt, hheld⟩
        · exact .inl ⟨hi, hheld.cons hx hle⟩
        · refine .inr ⟨j + 1, m', x', by omega, hm', hx', hmark, hlt, hheld.cons hx ?_⟩
          exact fun hm => Nat.le_trans (Nat.le_of_lt hlt) (hle hm)

/-- If the outputs exist the choice does not fail, and a method is chosen unless all unclaimed outputs
are held at least as strongly as the bound. -/
theorem exists_weakestMethodFrom {ms : List (Method W T)} {start : Nat} {bound : Strength}
    {chosen : Option Nat} (hlive : ∀ m ∈ ms, (s.variableAt? m.output).isSome) :
    ∃ i?, s.weakestMethodFrom mark ms start bound chosen = .ok i? ∧
      (i? = none → chosen = none ∧ s.HeldBy mark ms bound) := by
  induction ms generalizing start bound chosen with
  | nil => exact ⟨chosen, rfl, fun h => ⟨h, fun m hm => absurd hm List.not_mem_nil⟩⟩
  | cons m ms ih =>
    obtain ⟨x, hx⟩ := Option.isSome_iff_exists.1 (hlive m List.mem_cons_self)
    have hlive' : ∀ m' ∈ ms, (s.variableAt? m'.output).isSome :=
      fun m' hm' => hlive m' (List.mem_cons_of_mem m hm')
    rw [weakestMethodFrom_cons hx]
    split
    · -- once a method is chosen, another one can only take its place
      exact (ih hlive').imp fun i? ⟨hi, hnone⟩ => ⟨hi, fun h => nomatch (hnone h).1⟩
    · next hfree =>
      refine (ih hlive').imp fun i? ⟨hi, hnone⟩ => ⟨hi, fun h => ⟨(hnone h).1, ?_⟩⟩
      refine (hnone h).2.cons hx fun hmark => ?_
      exact Nat.le_of_not_lt fun hlt => hfree ⟨hmark, hlt⟩

/-- The method that is chosen for a constraint has an unclaimed output that is held more weakly than
the constraint insists, and no unclaimed output is held more weakly still. -/
theorem weakestMethod_eq_some {d : Definition W T} {i : Nat}
    (h : s.weakestMethod mark d = .ok (some i)) :
    ∃ m x, d.method? i = some m ∧ s.variableAt? m.output = some x ∧ x.mark ≠ mark ∧
      x.walkStrength < d.strength ∧ s.HeldBy mark d.methods x.walkStrength := by
  rcases weakestMethodFrom_eq_some h with ⟨hi, _⟩ | ⟨j, m, x, hi, hm, hx⟩
  · cases hi
  · rw [Nat.zero_add] at hi
    subst hi
    exact ⟨m, x, hm, hx⟩

/-- Marking the other variables of a constraint. -/
theorem variableAt?_claimInputs (s : Solver W T) (mark : Mark) (d : Definition W T) (o v : VarId) :
    (s.modifyVariables (d.vars.filter (· ≠ o)) fun y => { y with mark := mark }).variableAt? v =
      (s.variableAt? v).map fun y =>
        { y with mark := if v ∈ d.vars ∧ v ≠ o then mark else y.mark } := by
  rw [variableAt?_modifyVariables _ (d.vars_nodup.filter _)]
  simp only [List.mem_filter, decide_eq_true_eq]
  split
  · rfl
  · exact Option.map_id'.symm

/-- Taking a method out of force that is not there changes nothing. -/
theorem alike_clearEnforcing {c : ConstraintId} {node : Constraint W T}
    (hnode : s.constraintAt? c = some node) (hidle : node.enforcing = none) :
    s.Alike (s.modifyConstraint c fun x => { x with enforcing := none }) := by
  refine ⟨fun k => ?_, fun _ => rfl, rfl, rfl⟩
  rw [constraintAt?_modifyConstraint]
  by_cases hk : k = c
  · rw [if_pos hk, hk, hnode, Option.map_some, ← hidle]
  · rw [if_neg hk]

end Solver

namespace SolveM

variable {W T : Type} {m : Machine W T} {c : ConstraintId} {node : Constraint W T}

/-- Changing variables that exist one after the other succeeds and changes them all. -/
theorem ensures_forM_changeVariable {vs : List VarId} {f : Variable T → Variable T}
    (hlive : ∀ v ∈ vs, (m.solver.variableAt? v).isSome)
    {Q : Except SolveError PUnit → Machine W T → Prop} :
    Ensures (vs.forM fun v => changeVariable v f) m Q ↔
      Q (.ok ⟨⟩) { m with solver := m.solver.modifyVariables vs f } := by
  induction vs generalizing m with
  | nil => exact ensures_pure _
  | cons v vs ih =>
    obtain ⟨x, hx⟩ := Option.isSome_iff_exists.1 (hlive v List.mem_cons_self)
    change Ensures (changeVariable v f >>= fun _ => vs.forM fun v => changeVariable v f) m Q ↔ _
    rw [ensures_bind, ensures_changeVariable, hx]
    simp only
    rw [ih]
    · rfl
    · -- no variable is forgotten on the way, so the look-ups of the rest do not fail either
      intro u hu
      rw [(Solver.propagates_modifyVariable f v m.solver).live]
      exact hlive u (List.mem_cons_of_mem v hu)

/-- Changing variables one after the other, whether they exist or not. -/
theorem ensures_forM_update {vs : List VarId} {f : Variable T → Variable T}
    {Q : Except SolveError PUnit → Machine W T → Prop} :
    Ensures (vs.forM fun v => update fun s => s.modifyVariable v f) m Q ↔
      Q (.ok ⟨⟩) { m with solver := m.solver.modifyVariables vs f } := by
  induction vs generalizing m with
  | nil => exact ensures_pure _
  | cons v vs ih =>
    change Ensures (update (fun s => s.modifyVariable v f) >>= fun _ =>
      vs.forM fun v => update fun s => s.modifyVariable v f) m Q ↔ _
    rw [ensures_bind, ensures_update, ih]
    rfl

/-! ## Entering the graph -/

/-- A constraint that is switched on and registered has entered the graph. -/
theorem ensures_register (h : m.solver.Grounded) (hnode : m.solver.constraintAt? c = some node)
    (hoff : node.enabled = false) {Q : Except SolveError Unit → Machine W T → Prop}
    (hQ : ∀ m', Solver.Entered m.solver m'.solver c node → m'.solver.passes = m.solver.passes →
      m'.solver.changes = m.solver.changes →
      m'.solver.metrics.faults = m.solver.metrics.faults → Q (.ok ()) m') :
    Ensures (do
      changeConstraint c fun x => { x with enabled := true, enforcing := none }
      register c) m Q := by
  rw [ensures_bind, ensures_changeConstraint, hnode]
  simp only [register, ensures_bind, ensures_getConstraint]
  have hlook : (m.solver.modifyConstraint c fun x =>
      { x with enabled := true, enforcing := none }).lookupConstraint c =
        .ok { node with enabled := true, enforcing := none } := by
    apply Solver.lookupConstraint_eq_ok
    rw [Solver.constraintAt?_modifyConstraint, if_pos rfl, hnode]
    rfl
  rw [hlook]
  simp only
  refine (ensures_forM_changeVariable ?_).2 (hQ _ ?_ ?_ ?_ ?_)
  · exact h.mentioned hnode
  · refine ⟨⟨hnode, hoff⟩, fun k => ?_, fun v => ?_⟩
    · rw [Solver.constraintAt?_modifyVariables, Solver.constraintAt?_modifyConstraint, hnode]
      rfl
    · rw [Solver.variableAt?_modifyVariables _ node.definition.vars_nodup,
        Solver.variableAt?_modifyConstraint]
      split
      · rfl
      · exact Option.map_id'.symm
  · rw [Solver.modifyVariables_eq]
    rfl
  · rw [Solver.modifyVariables_eq]
    rfl
  · rw [Solver.modifyVariables_eq]
    rfl

/-! ## Putting a method in force -/

/-- Seizing a variable displaces its determiner and makes `c` the determiner. -/
theorem ensures_seize {o : VarId} {x : Variable T} (hx : m.solver.variableAt? o = some x)
    (hlive : ∀ k, x.determinedBy = some k → (m.solver.constraintAt? k).isSome) :
    Ensures (seize c o) m fun r m' => r = .ok x.determinedBy ∧
      (∀ k, m'.solver.constraintAt? k =
        if x.determinedBy = some k then
          (m.solver.constraintAt? k).map fun y => { y with enforcing := none }
        else m.solver.constraintAt? k) ∧
      (∀ v, m'.solver.variableAt? v =
        if v = o then some { x with determinedBy := some c } else m.solver.variableAt? v) ∧
      m'.solver.passes = m.solver.passes ∧ m'.solver.changes = m.solver.changes ∧
      m'.solver.metrics.faults = m.solver.metrics.faults := by
  unfold seize
  rw [ensures_bind, ensures_getVariable, Solver.lookupVariable_eq_ok hx]
  simp only
  -- with nothing displaced, only the output changes
  cases hd : x.determinedBy with
  | none =>
    simp only [ensures_bind]
    refine .changeVariable hx ?_
    simp only [ensures_count, ensures_note, ensures_pure]
    refine ⟨trivial, fun k => ?_, fun v => ?_, rfl, rfl, rfl⟩
    · rw [if_neg (by simp)]
      rfl
    · change (m.solver.modifyVariable o _).variableAt? v = _
      rw [Solver.variableAt?_modifyVariable, hx]
      rfl
  | some k =>
    obtain ⟨n, hn⟩ := Option.isSome_iff_exists.1 (hlive k hd)
    simp only [ensures_bind]
    refine .changeConstraint hn ?_
    simp only [ensures_count, ensures_note]
    refine .changeVariable (x := x) hx ?_
    simp only [ensures_pure]
    refine ⟨trivial, fun j => ?_, fun v => ?_, rfl, rfl, rfl⟩
    · change (m.solver.modifyConstraint k _).constraintAt? j = _
      rw [Solver.constraintAt?_modifyConstraint]
      by_cases hj : j = k
      · rw [if_pos hj, if_pos (by rw [hj]), hj]
      · rw [if_neg hj, if_neg fun e => hj (Option.some.inj e).symm]
    · change (m.solver.modifyVariable o _).variableAt? v = _
      rw [Solver.variableAt?_modifyVariable, hx]
      rfl

/-- What comes of a constraint that may use no method: a required one is counted as unsatisfiable and
fails, and any other is left as it is. -/
def Refused (s s' : Solver W T) (c : ConstraintId) (node : Constraint W T)
    (r : Except SolveError (Option (VarId × Option ConstraintId))) : Prop :=
  if node.definition.strength = .required then
    r = .error (.unsatisfiableRequired c) ∧
      s'.metrics.faults = (s.metrics.cycles, s.metrics.unsatisfiable + 1)
  else r = .ok none ∧ s'.metrics.faults = s.metrics.faults

/-- Once a method that was chosen is recorded as in force and its inputs are claimed, seizing the output
completes the installation. -/
theorem ensures_seize_installs {m₁ : Machine W T} {mark : Mark} {i : Nat} {method : Method W T}
    (h : m.solver.WellFormed) (hnode : m.solver.constraintAt? c = some node)
    (hen : node.enabled = true) (hidle : node.enforcing = none)
    (hchosen : m.solver.weakestMethod mark node.definition = .ok (some i))
    (hmethod : node.definition.method? i = some method)
    (hcs : ∀ k, m₁.solver.constraintAt? k =
      if k = c then some { node with enforcing := some i } else m.solver.constraintAt? k)
    (hvs : ∀ v, m₁.solver.variableAt? v = (m.solver.variableAt? v).map fun y =>
      { y with mark := if v ∈ node.definition.vars ∧ v ≠ method.output then mark else y.mark }) :
    Ensures (seize c method.output) m₁ fun r m' => ∃ x,
      m.solver.Installed m'.solver mark c node i method x ∧ r = .ok x.determinedBy ∧
      m'.solver.passes = m₁.solver.passes ∧ m'.solver.changes = m₁.solver.changes ∧
      m'.solver.metrics.faults = m₁.solver.metrics.faults := by
  obtain ⟨method', x, hmethod', hx, hmark, hweak, hleast⟩ := Solver.weakestMethod_eq_some hchosen
  obtain rfl := Option.some.inj (hmethod'.symm.trans hmethod)
  -- the output is not among the inputs, so it is not claimed
  have hout : m₁.solver.variableAt? method'.output = some x := by
    rw [hvs, hx]
    simp
  -- the constraint is idle, so the displaced one is another
  have hne : x.determinedBy ≠ some c := by
    intro hc
    exact Solver.not_determines hnode hidle _ ((h.determined hx c).1 hc)
  have hlive : ∀ k, x.determinedBy = some k → (m₁.solver.constraintAt? k).isSome := by
    intro k hk
    obtain ⟨n, hn, _⟩ := (h.determined hx k).1 hk
    rw [hcs]
    split
    · rfl
    · rw [hn]
      rfl
  refine (ensures_seize hout hlive).mono ?_
  rintro r m' ⟨rfl, hcs', hvs', hpasses, hchanges, hfaults⟩
  refine ⟨x, ⟨⟨hnode, hen, hidle⟩, hmethod, ⟨hx, hmark, hweak⟩, hleast, fun k => ?_, fun v => ?_⟩,
    rfl, hpasses, hchanges, hfaults⟩
  · rw [hcs', hcs]
    by_cases hk : k = c
    · rw [hk, if_pos rfl, if_pos rfl, if_neg hne]
    · rw [if_neg hk, if_neg hk]
  · rw [hvs', hvs]
    by_cases hv : v = method'.output
    · rw [if_pos hv, hv, hx]
      simp
    · rw [if_neg hv]
      simp only [if_neg hv]

/-- Installing a method either finds none that may be used and changes nothing of the graph, or puts
one in force. -/
theorem ensures_install {mark : Mark} (h : m.solver.WellFormed)
    (hnode : m.solver.constraintAt? c = some node) (hen : node.enabled = true)
    (hidle : node.enforcing = none) :
    Ensures (install mark c) m fun r m' =>
      (m.solver.Alike m'.solver ∧ Refused m.solver m'.solver c node r ∧
        m.solver.HeldBy mark node.definition.methods node.definition.strength) ∨
      ∃ i x method, m.solver.Installed m'.solver mark c node i method x ∧
        r = .ok (some (method.output, x.determinedBy)) ∧
        m'.solver.passes = m.solver.passes ∧ m'.solver.changes = m.solver.changes ∧
        m'.solver.metrics.faults = m.solver.metrics.faults := by
  have hkeep := Solver.alike_clearEnforcing hnode hidle
  -- the choice does not fail, since all outputs exist
  obtain ⟨chosen, hchosen, hheld⟩ : ∃ i?, m.solver.weakestMethod mark node.definition = .ok i? ∧
      (i? = none → none = none ∧
        m.solver.HeldBy mark node.definition.methods node.definition.strength) :=
    Solver.exists_weakestMethodFrom fun method hm =>
      h.mentioned hnode _ (Definition.output_mem_vars hm)
  unfold install
  rw [ensures_bind, ensures_getConstraint, Solver.lookupConstraint_eq_ok hnode]
  simp only [ensures_bind, ensures_query, hchosen]
  refine .changeConstraint hnode ?_
  cases chosen with
  | none =>
    -- the method is cleared that was not in force
    simp only [Option.bind_none]
    split
    · next hreq =>
      simp only [ensures_bind, ensures_count, ensures_throw]
      refine .inl ⟨⟨hkeep.constraintAt, fun _ => rfl, rfl, rfl⟩, ?_, (hheld rfl).2⟩
      rw [Refused, if_pos (by simpa [Strength.isRequired] using hreq)]
      exact ⟨rfl, rfl⟩
    · next hreq =>
      simp only [ensures_bind, ensures_note, ensures_pure]
      -- a constraint that is not required may stay without a method
      refine .inl ⟨hkeep, ?_, (hheld rfl).2⟩
      rw [Refused, if_neg (by simpa [Strength.isRequired] using hreq)]
      exact ⟨rfl, rfl⟩
  | some i =>
    obtain ⟨method, _, hmethod, _⟩ := Solver.weakestMethod_eq_some hchosen
    simp only [Option.bind_some, hmethod]
    rw [ensures_bind]
    refine (ensures_forM_changeVariable ?_).2 ?_
    · intro v hv
      exact h.mentioned hnode v (List.mem_filter.1 hv).1
    simp only [ensures_bind]
    refine (ensures_seize_installs h hnode hen hidle hchosen hmethod (fun k => ?_)
      fun v => ?_).mono ?_
    · rw [Solver.constraintAt?_modifyVariables, Solver.constraintAt?_modifyConstraint, hnode]
      rfl
    · rw [Solver.variableAt?_claimInputs, Solver.variableAt?_modifyConstraint]
    · -- marking the inputs has begun no pass and counted no fault
      rintro r m' ⟨x, hi, rfl, hpasses, hchanges, hfaults⟩
      rw [Solver.modifyVariables_eq] at hpasses hchanges hfaults
      simp only [ensures_pure]
      exact .inr ⟨i, x, method, hi, rfl, hpasses, hchanges, hfaults⟩

/-- If an idle constraint gives an output, a method of it is in force. -/
theorem installed_of_exec {mark : Mark} {m' : Machine W T} {o : VarId}
    {displaced : Option ConstraintId} (h : m.solver.WellFormed) (hidle : m.solver.Idle c)
    (hrun : exec (install mark c) m = some (.ok (some (o, displaced)), m')) :
    ∃ node i x method, m.solver.Installed m'.solver mark c node i method x ∧ method.output = o ∧
      x.determinedBy = displaced ∧ m'.solver.passes = m.solver.passes := by
  obtain ⟨node, hnode, hen, hnone⟩ := hidle
  obtain ⟨_, hrefused, _⟩ | ⟨i, x, method, hi, hr, hp, _⟩ :=
    ensures_install h hnode hen hnone _ m' hrun
  · -- a refusal gives no output
    unfold Refused at hrefused
    split at hrefused
    · cases hrefused.1
    · cases hrefused.1
  · obtain ⟨rfl, rfl⟩ := Prod.mk.inj (Option.some.inj (Except.ok.inj hr))
    exact ⟨node, i, x, method, hi, rfl, rfl, hp⟩

/-! ## Leaving the graph -/

/-- Take the method of a constraint out of force and the constraint out of the incidence sets. Gives
the output that it had, which is not yet released. -/
def depart (c : ConstraintId) : SolveM W T (Option VarId) := do
  let output := (← getConstraint c).output?
  changeConstraint c fun x => { x with enforcing := none }
  deregister c
  if let some output := output then note (.releases c output)
  return output

/-- Take the method of a constraint out of force and the constraint out of the incidence sets, and
release the output that it had. -/
def detach (c : ConstraintId) : SolveM W T (Option VarId) := do
  let output := (← getConstraint c).output?
  changeConstraint c fun x => { x with enforcing := none }
  deregister c
  match output with
  | none => return none
  | some output =>
    note (.releases c output)
    changeVariable output Variable.release
    return some output

/-- A constraint departs, and then its output is released. -/
theorem detach_eq (c : ConstraintId) :
    (detach c : SolveM W T (Option VarId)) = depart c >>= fun
      | none => return none
      | some output => do
        changeVariable output Variable.release
        return some output := by
  unfold detach depart
  simp only [bind_assoc]
  refine bind_congr fun node => bind_congr fun _ => bind_congr fun _ => ?_
  cases node.output? with
  | none => simp
  | some o => simp

/-- A constraint that is withdrawn departs, its output is vacated, and what this has left stranded is
added again. -/
theorem withdraw_depart (add : ConstraintId → SolveM W T Unit) (fuel : Nat) (c : ConstraintId) :
    withdraw add fuel c = depart c >>= fun
      | none => return
      | some output => vacate fuel output >>= fun cs => readd add cs none := by
  unfold withdraw depart
  simp only [bind_assoc]
  refine bind_congr fun node => bind_congr fun _ => bind_congr fun _ => ?_
  cases node.output? with
  | none => simp
  | some o => simp

/-- Detaching a constraint obeys what withdrawing obeys. -/
theorem detach_obeys {ρ : Solver W T → Solver W T → Prop} (hρ : ForceFrame ρ) (c : ConstraintId) :
    Obeys ρ (detach c) := by
  have hT := hρ.toTransitive
  unfold detach
  refine .bind hT (.getConstraint hT c) fun node => .bind hT (hρ.setIdle c) fun _ => ?_
  refine .bind hT (deregister_obeys hρ c) fun _ => ?_
  cases node.output? with
  | none => exact .pure hT _
  | some o => exact .bind hT (.note hT _) fun _ => .bind hT (hρ.changeVariable o _) fun _ => .pure hT _

/-- Recalculate everything downstream of a variable that was released, and `add` the constraints
that are found to be stranded. -/
def mend (add : ConstraintId → SolveM W T Unit) (fuel : Nat) : Option VarId → SolveM W T Unit
  | none => return
  | some output => do
    let found ← strandedFrom fuel (.singleton output) .empty
    readd add (← ask (·.rank found.toList)) none

/-- The two halves of a withdrawal. -/
theorem withdraw_eq (add : ConstraintId → SolveM W T Unit) (fuel : Nat) (c : ConstraintId) :
    withdraw add fuel c = detach c >>= mend add fuel := by
  unfold withdraw detach vacate
  simp only [bind_assoc]
  refine bind_congr fun node => bind_congr fun _ => bind_congr fun _ => ?_
  cases node.output? with
  | none => simp [mend]
  | some o => simp [mend]

/-- `c` has been switched off, and nothing else has changed yet. -/
structure SwitchedOff (s s' : Solver W T) (c : ConstraintId) (node : Constraint W T) : Prop where
  /-- The constraint before. -/
  before : s.constraintAt? c = some node
  /-- The constraints afterwards. -/
  constraintAt : ∀ k, s'.constraintAt? k =
    if k = c then some { node with enabled := false } else s.constraintAt? k
  /-- The variables afterwards. -/
  variableAt : ∀ v, s'.variableAt? v = s.variableAt? v

/-- The change of the flag is all there is to switching off. -/
theorem switchedOff_modifyConstraint {s : Solver W T} (h : s.constraintAt? c = some node) :
    SwitchedOff s (s.modifyConstraint c fun x => { x with enabled := false }) c node where
  before := h
  constraintAt k := by
    rw [Solver.constraintAt?_modifyConstraint, h]
    rfl
  variableAt _ := rfl

/-- The work counters have nothing to do with it. -/
theorem switchedOff_of_alike {s s' : Solver W T} (ha : s.Alike s')
    (h : s.constraintAt? c = some node) :
    SwitchedOff s (s'.modifyConstraint c fun x => { x with enabled := false }) c node where
  before := h
  constraintAt k := by
    rw [Solver.constraintAt?_modifyConstraint, ha.constraintAt, ha.constraintAt, h]
    rfl
  variableAt := ha.variableAt

section

variable {s : Solver W T}

/-- Nothing that propagates switches it on again. -/
theorem SwitchedOff.not_enabled {s s' s₁ : Solver W T} (hoff : SwitchedOff s s' c node)
    (hp : s'.Propagates s₁) : ¬ s₁.Enabled c := by
  intro hon
  obtain ⟨n, hn, hen⟩ := hp.enabled c hon
  have hc := hoff.constraintAt c
  rw [if_pos rfl] at hc
  obtain rfl := Option.some.inj (hc.symm.trans hn)
  cases hen

/-- A constraint that was switched off without a method in force leaves the graph when it is taken
out of the incidence sets. -/
theorem ensures_deregister (hoff : SwitchedOff s m.solver c node) (hidle : node.enforcing = none) :
    Ensures (deregister c) m fun r m' => r = .ok () ∧ s.Detached m'.solver c node ∧
      m'.solver.passes = m.solver.passes ∧ m'.solver.changes = m.solver.changes := by
  have hnode := hoff.constraintAt c
  rw [if_pos rfl] at hnode
  unfold deregister
  rw [ensures_bind, ensures_getConstraint, Solver.lookupConstraint_eq_ok hnode]
  simp only
  refine ensures_forM_update.2 ⟨rfl, ⟨hoff.before, fun k => ?_, fun v => ?_⟩, ?_, ?_⟩
  · rw [Solver.constraintAt?_modifyVariables, hoff.constraintAt, ← hidle]
  · -- there is no output to release
    rw [Solver.variableAt?_modifyVariables _ node.definition.vars_nodup, hoff.variableAt,
      Constraint.output?_eq_none hidle]
    simp only [reduceCtorEq, if_false]
    split
    · rfl
    · exact Option.map_id'.symm
  · rw [Solver.modifyVariables_eq]
  · rw [Solver.modifyVariables_eq]

/-- The method of `c` is out of force, and `c` is out of the incidence sets; the output is not yet
released. -/
structure Departed (s s' : Solver W T) (c : ConstraintId) (node : Constraint W T) : Prop where
  /-- The constraint before. -/
  before : s.constraintAt? c = some node
  /-- The constraints afterwards. -/
  constraintAt : ∀ k, s'.constraintAt? k =
    if k = c then some { node with enabled := false, enforcing := none } else s.constraintAt? k
  /-- The variables afterwards. -/
  variableAt : ∀ v, s'.variableAt? v = (s.variableAt? v).map fun x =>
    if v ∈ node.definition.vars then { x with incident := x.incident.erase c } else x

/-- A constraint without a method in force has no output that would have to be released. -/
theorem Departed.detached {s' : Solver W T} (hd : Departed s s' c node) (hout : node.output? = none) :
    s.Detached s' c node :=
  ⟨hd.before, hd.constraintAt, fun v => by simp [hd.variableAt, hout]⟩

/-- Releasing the output of a constraint that has departed detaches it. -/
theorem Departed.released {s' : Solver W T} {o : VarId} (hd : Departed s s' c node)
    (hout : node.output? = some o) : s.Detached (s'.modifyVariable o Variable.release) c node where
  before := hd.before
  constraintAt := hd.constraintAt
  variableAt v := by
    rw [Solver.variableAt?_modifyVariable, hd.variableAt, hd.variableAt, hout]
    -- releasing changes the output and no other variable
    by_cases hv : v = o
    · subst hv
      simp only [if_true, Option.map_map]
      rfl
    · simp only [if_neg hv, Option.some.injEq, if_neg fun e : o = v => hv e.symm]

/-- A constraint that was switched off departs. -/
theorem ensures_depart (hoff : SwitchedOff s m.solver c node) :
    Ensures (depart c) m fun r m' => r = .ok node.output? ∧ Departed s m'.solver c node ∧
      m'.solver.passes = m.solver.passes := by
  have hnode := hoff.constraintAt c
  rw [if_pos rfl] at hnode
  unfold depart
  rw [ensures_bind, ensures_getConstraint, Solver.lookupConstraint_eq_ok hnode]
  simp only
  rw [ensures_bind]
  refine .changeConstraint hnode ?_
  simp only
  -- taking the method out of force and deregistering, before the output is looked at
  have hnode' : (m.solver.modifyConstraint c fun x =>
      { x with enforcing := none }).lookupConstraint c =
        .ok { node with enabled := false, enforcing := none } := by
    apply Solver.lookupConstraint_eq_ok
    rw [Solver.constraintAt?_modifyConstraint, if_pos rfl, hnode]
    rfl
  unfold deregister
  rw [ensures_bind, ensures_bind, ensures_getConstraint, hnode']
  refine ensures_forM_update.2 ?_
  simp only
  have hdeparted : Departed s ((m.solver.modifyConstraint c fun x =>
      { x with enforcing := none }).modifyVariables node.definition.vars
        fun x => { x with incident := x.incident.erase c }) c node := by
    refine ⟨hoff.before, fun k => ?_, fun v => ?_⟩
    · rw [Solver.constraintAt?_modifyVariables, Solver.constraintAt?_modifyConstraint,
        hoff.constraintAt c, hoff.constraintAt k]
      by_cases hk : k = c
      · rw [if_pos hk, if_pos hk, if_pos rfl]
        rfl
      · rw [if_neg hk, if_neg hk, if_neg hk]
    · rw [Solver.variableAt?_modifyVariables _ node.definition.vars_nodup,
        Solver.variableAt?_modifyConstraint, hoff.variableAt]
      split
      · rfl
      · exact Option.map_id'.symm
  have hp : ((m.solver.modifyConstraint c fun x =>
      { x with enforcing := none }).modifyVariables node.definition.vars
        fun x => { x with incident := x.incident.erase c }).passes = m.solver.passes := by
    rw [Solver.modifyVariables_eq]
    rfl
  have hsame : Constraint.output? { node with enabled := false } = node.output? := rfl
  rw [hsame]
  cases hout : node.output? with
  | none =>
    simp only [ensures_pure]
    exact ⟨trivial, hdeparted, hp⟩
  | some o =>
    simp only [ensures_bind, ensures_note, ensures_pure]
    exact ⟨trivial, hdeparted, hp⟩

/-- A constraint that was switched off leaves the graph when it is detached. -/
theorem ensures_detach (h : s.Grounded) (hoff : SwitchedOff s m.solver c node) :
    Ensures (detach c) m fun r m' => r = .ok node.output? ∧ s.Detached m'.solver c node ∧
      m'.solver.passes = m.solver.passes := by
  rw [detach_eq, ensures_bind]
  refine (ensures_depart hoff).mono ?_
  rintro _ m₁ ⟨rfl, hd, hp⟩
  -- only a constraint with a method in force leaves a variable vacant
  cases hout : node.output? with
  | none => exact (ensures_pure _).2 ⟨rfl, hd.detached hout, hp⟩
  | some o =>
    obtain ⟨x, hx⟩ := Option.isSome_iff_exists.1
      (h.mentioned hoff.before o (Constraint.mem_vars_of_output? hout))
    simp only [ensures_bind]
    refine .changeVariable (x := if o ∈ node.definition.vars then
      { x with incident := x.incident.erase c } else x) ?_ ?_
    · rw [hd.variableAt, hx]
      rfl
    · exact (ensures_pure _).2 ⟨rfl, hd.released hout, hp⟩

end

end SolveM

end DeltaBlue
