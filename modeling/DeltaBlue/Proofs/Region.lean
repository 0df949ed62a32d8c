import Mathlib.Data.Set.Insert
import DeltaBlue.Proofs.Blame

/-!
# Operations that stay inside a region

Propagation gets from one node to the next over what the nodes have on record: a variable the
constraints that are incident to it and the one that determines it, a constraint the variables of its
definition. A region is a set of variables and constraints, and a solver encloses it if all that is on
record inside leads inside (`Solver.Encloses`). An operation that begins inside such a region stays
inside: it leaves everything outside as it is, the region is enclosed afterwards as well, and what the
operation hands on, in its result or in its failure, lies in the region (`SolveM.Confined`). This is
shown once for every operation from adding and removing to enabling and disabling, along their texts.
-/

namespace DeltaBlue

/-- A set of variables and constraints. -/
structure Region where
  /-- The variables. -/
  vars : Set VarId
  /-- The constraints. -/
  constraints : Set ConstraintId

namespace Region

variable {W T : Type} {R : Region}

/-- The constraints that a variable has on record are in the region. -/
structure Closes (R : Region) (x : Variable T) : Prop where
  /-- The incident constraints are. -/
  incident : ∀ c ∈ x.incident, c ∈ R.constraints
  /-- The determiner is. -/
  determiner : ∀ c, x.determinedBy = some c → c ∈ R.constraints

/-- The constraint that had a part in the failure is in the region. -/
def Names (R : Region) (e : SolveError) : Prop := ∀ c, e.blamed? = some c → c ∈ R.constraints

/-- The variables that a constraint declares are in the region. -/
structure Spans (R : Region) (x : Constraint W T) : Prop where
  /-- The variables of the definition are. -/
  vars : ∀ v ∈ x.definition.vars, v ∈ R.vars
  /-- The sink is. -/
  sink : ∀ v, x.sink = some v → v ∈ R.vars

/-- A failure in which no constraint had a part names nothing outside. -/
theorem names_of_blamed?_eq_none {e : SolveError} (h : e.blamed? = none) : R.Names e := by
  intro c hc
  rw [h] at hc
  cases hc

/-- A variable that nothing determines any more records no more than before. -/
theorem Closes.release {x : Variable T} (h : R.Closes x) : R.Closes x.release :=
  ⟨h.incident, nofun⟩

/-- A variable on which the constraints are the same, or fewer. -/
theorem Closes.of_links {x y : Variable T} (h : R.Closes x) (hy : y.links = x.links) :
    R.Closes y := by
  obtain ⟨hi, hd⟩ := Prod.mk.inj hy
  exact ⟨fun c hc => h.incident c (hi ▸ hc), fun c hc => h.determiner c (hd ▸ hc)⟩

/-- The constraints with a method in force that read a variable are on its record. -/
theorem Closes.consumers {x : Variable T} (h : R.Closes x) (s : Solver W T) :
    ∀ c ∈ s.consumers x, c ∈ R.constraints :=
  fun c hc => h.incident c (List.mem_filter.1 hc).1

/-- The output of the method in force is one of the variables of the definition. -/
theorem Spans.output? {x : Constraint W T} {v : VarId} (h : R.Spans x)
    (hv : x.output? = some v) : v ∈ R.vars :=
  h.vars v (Constraint.mem_vars_of_output? hv)

/-- A constraint that declares the same. -/
theorem Spans.of_declared {x y : Constraint W T} (h : R.Spans x) (hy : y.declared = x.declared) :
    R.Spans y := by
  obtain ⟨hd, hs⟩ := Prod.mk.inj hy
  exact ⟨fun v hv => h.vars v (hd ▸ hv), fun v hv => h.sink v (hs ▸ hv)⟩

end Region

namespace Solver

variable {W T : Type}

/-- What the nodes of the region have on record lies in the region. -/
structure Encloses (s : Solver W T) (R : Region) : Prop where
  /-- Variables of the region record constraints of the region. -/
  closes : ∀ v ∈ R.vars, ∀ x, s.variableAt? v = some x → R.Closes x
  /-- Constraints of the region mention variables of the region. -/
  spans : ∀ c ∈ R.constraints, ∀ node, s.constraintAt? c = some node → R.Spans node

/-- Everything outside the region is the same. -/
structure AgreesOutside (R : Region) (s s' : Solver W T) : Prop where
  /-- The variables outside are the same. -/
  variableAt : ∀ v, v ∉ R.vars → s'.variableAt? v = s.variableAt? v
  /-- The constraints outside are the same. -/
  constraintAt : ∀ c, c ∉ R.constraints → s'.constraintAt? c = s.constraintAt? c

/-- The region is still enclosed, and everything outside is the same. -/
structure StaysIn (R : Region) (s s' : Solver W T) : Prop extends AgreesOutside R s s' where
  /-- The region is enclosed. -/
  encloses : s'.Encloses R

variable {R : Region} {s s' s'' : Solver W T} {v : VarId} {c : ConstraintId}

/-- Two operations that leave the outside as it is do so one after the other. -/
theorem AgreesOutside.trans (h : AgreesOutside R s s') (h' : AgreesOutside R s' s'') :
    AgreesOutside R s s'' where
  variableAt v hv := (h'.variableAt v hv).trans (h.variableAt v hv)
  constraintAt c hc := (h'.constraintAt c hc).trans (h.constraintAt c hc)

/-- Two operations that stay inside do so one after the other. -/
theorem StaysIn.trans (h : StaysIn R s s') (h' : StaysIn R s' s'') : StaysIn R s s'' :=
  ⟨h.toAgreesOutside.trans h'.toAgreesOutside, h'.encloses⟩

/-- The variables and the constraints are the same. -/
theorem Encloses.staysIn (h : s.Encloses R) (hv : ∀ v, s'.variableAt? v = s.variableAt? v)
    (hc : ∀ c, s'.constraintAt? c = s.constraintAt? c) : StaysIn R s s' where
  variableAt v _ := hv v
  constraintAt c _ := hc c
  encloses :=
    { closes := fun v hmem x hx => h.closes v hmem x ((hv v).symm.trans hx)
      spans := fun c hmem node hnode => h.spans c hmem node ((hc c).symm.trans hnode) }

/-- A variable of the region is changed, and its record stays in the region. -/
theorem Encloses.modifyVariable (h : s.Encloses R) (hv : v ∈ R.vars)
    {f : Variable T → Variable T} (hf : ∀ x, R.Closes x → R.Closes (f x)) :
    StaysIn R s (s.modifyVariable v f) where
  variableAt u hu := by
    rw [variableAt?_modifyVariable, if_neg]
    rintro rfl
    exact hu hv
  constraintAt _ _ := rfl
  encloses :=
    { closes := fun u hu x hx => by
        rw [variableAt?_modifyVariable] at hx
        -- the changed variable keeps its record inside by assumption, the others are as they were
        by_cases huv : u = v
        · rw [if_pos huv] at hx
          obtain ⟨y, hy, rfl⟩ := Option.map_eq_some_iff.1 hx
          exact hf y (h.closes v hv y hy)
        · rw [if_neg huv] at hx
          exact h.closes u hu x hx
      spans := h.spans }

/-- A constraint of the region is changed, and declares the same. -/
theorem Encloses.modifyConstraint (h : s.Encloses R) (hc : c ∈ R.constraints)
    {f : Constraint W T → Constraint W T} (hf : ∀ x, (f x).declared = x.declared) :
    StaysIn R s (s.modifyConstraint c f) where
  variableAt _ _ := rfl
  constraintAt k hk := by
    rw [constraintAt?_modifyConstraint, if_neg]
    rintro rfl
    exact hk hc
  encloses :=
    { closes := h.closes
      spans := fun k hk node hnode => by
        rw [constraintAt?_modifyConstraint] at hnode
        -- a constraint that declares the same spans the same
        by_cases hkc : k = c
        · rw [if_pos hkc] at hnode
          obtain ⟨x, hx, rfl⟩ := Option.map_eq_some_iff.1 hnode
          exact (h.spans c hc x hx).of_declared (hf x)
        · rw [if_neg hkc] at hnode
          exact h.spans k hk node hnode }

/-- A constraint of the region is forgotten. -/
theorem Encloses.eraseConstraint (h : s.Encloses R) (hc : c ∈ R.constraints) :
    StaysIn R s { s with constraints := s.constraints.erase c } where
  variableAt _ _ := rfl
  constraintAt k hk := by
    rw [constraintAt?, Arena.get?_erase, if_neg]
    · rfl
    · rintro rfl
      exact hk hc
  encloses :=
    { closes := h.closes
      spans := fun k hk node hnode => by
        rw [constraintAt?, Arena.get?_erase] at hnode
        by_cases hkc : k = c
        · rw [if_pos hkc] at hnode
          cases hnode
        · rw [if_neg hkc] at hnode
          exact h.spans k hk node hnode }

/-- A variable of the region is forgotten. -/
theorem Encloses.eraseVariable (h : s.Encloses R) (hv : v ∈ R.vars) :
    StaysIn R s { s with vars := s.vars.erase v } where
  variableAt u hu := by
    rw [variableAt?, Arena.get?_erase, if_neg]
    · rfl
    · rintro rfl
      exact hu hv
  constraintAt _ _ := rfl
  encloses :=
    { closes := fun u hu x hx => by
        rw [variableAt?, Arena.get?_erase] at hx
        by_cases huv : u = v
        · rw [if_pos huv] at hx
          cases hx
        · rw [if_neg huv] at hx
          exact h.closes u hu x hx
      spans := h.spans }

end Solver

namespace SolveM

open Solver (StaysIn)

variable {W T α β : Type} {R : Region} {Q : α → Prop} {v : VarId} {c : ConstraintId}

/-- On a solver that encloses the region, the operation stays inside. If it succeeds, the result has
the property `Q`, and if it fails, the constraint that had a part in this is in the region. -/
def Confined (R : Region) (op : SolveM W T α) (Q : α → Prop) : Prop :=
  ∀ m, m.solver.Encloses R → Ensures op m fun r m' => StaysIn R m.solver m'.solver ∧
    match r with
    | .ok a => Q a
    | .error e => R.Names e

namespace Confined

/-- To return a value changes nothing. -/
theorem pure {a : α} (h : Q a) : Confined (W := W) (T := T) R (pure a) Q :=
  fun _ hm => (ensures_pure a).2 ⟨hm.staysIn (fun _ => rfl) fun _ => rfl, h⟩

/-- A failure that names only constraints of the region stays inside. -/
theorem throw {e : SolveError} (h : R.Names e) : Confined R (throw e : SolveM W T α) Q :=
  fun _ hm => (ensures_throw e).2 ⟨hm.staysIn (fun _ => rfl) fun _ => rfl, h⟩

/-- A walk that does not come to its end has nothing to show. -/
theorem unfinished : Confined R (unfinished : SolveM W T α) Q := fun _ _ => ensures_unfinished

/-- A query changes nothing, and if it fails, no constraint had a part in this. -/
theorem query {f : Solver W T → Except SolveError α} (hf : ∀ s, Blameless (f s))
    (hQ : ∀ s, s.Encloses R → ∀ a, f s = .ok a → Q a) : Confined R (query f) Q := by
  intro m hm
  rw [ensures_query]
  refine ⟨hm.staysIn (fun _ => rfl) fun _ => rfl, ?_⟩
  cases h : f m.solver with
  | ok a => exact hQ m.solver hm a h
  | error e => exact Region.names_of_blamed?_eq_none (hf m.solver e h)

/-- The outcome of an attempt is handed out. -/
theorem handOut {r : Except SolveError α} (h : match r with
      | .ok a => Q a
      | .error e => R.Names e) : Confined R (SolveM.query fun _ => r : SolveM W T α) Q :=
  fun _ hm => (ensures_query _).2 ⟨hm.staysIn (fun _ => rfl) fun _ => rfl, h⟩

/-- A question that cannot fail changes nothing. -/
theorem ask {f : Solver W T → α} (hQ : ∀ s, Q (f s)) : Confined R (ask f) Q :=
  fun m hm => (ensures_ask f).2 ⟨hm.staysIn (fun _ => rfl) fun _ => rfl, hQ m.solver⟩

/-- A change of the solver stays inside if its new state does. -/
theorem update {f : Solver W T → Solver W T} (hf : ∀ s, s.Encloses R → StaysIn R s (f s)) :
    Confined R (update f) fun _ => True :=
  fun m hm => (ensures_update f).2 ⟨hf m.solver hm, trivial⟩

/-- A notice changes no node. -/
theorem note (n : Notice T) : Confined (W := W) R (note n) fun _ => True :=
  fun _ hm => (ensures_note n).2 ⟨hm.staysIn (fun _ => rfl) fun _ => rfl, trivial⟩

/-- A counter is not part of the graph. -/
theorem count (f : Metrics → Metrics) : Confined (W := W) (T := T) R (count f) fun _ => True :=
  .update fun _ hm => hm.staysIn (fun _ => rfl) fun _ => rfl

/-- What the formula of a method does to the world leaves the graph as it is. -/
theorem runOn (x : Method W T) (values : Except FormulaError (List T)) :
    Confined R (runOn x values) fun _ => True := by
  intro m hm
  rw [ensures_runOn]
  cases values with
  | error cause => exact ⟨hm.staysIn (fun _ => rfl) fun _ => rfl, trivial⟩
  | ok values => exact ⟨hm.staysIn (fun _ => rfl) fun _ => rfl, trivial⟩

/-- Of two operations in sequence the second begins with what the first hands on. -/
theorem bind {P : α → Prop} {Q : β → Prop} {op : SolveM W T α} {f : α → SolveM W T β}
    (hop : Confined R op P) (hf : ∀ a, P a → Confined R (f a) Q) : Confined R (op >>= f) Q := by
  intro m hm
  rw [ensures_bind]
  refine (hop m hm).mono ?_
  rintro r m₁ ⟨h₁, hr⟩
  cases r with
  | ok a =>
    -- the region is still enclosed where the second operation begins
    refine (hf a hr m₁ h₁.encloses).mono ?_
    rintro r m' ⟨h', hr'⟩
    exact ⟨h₁.trans h', hr'⟩
  | error e => exact ⟨h₁, hr⟩

/-- An attempt hands the failure on as a result, and it still names only the region. -/
theorem attempt {op : SolveM W T α} (hop : Confined R op Q) :
    Confined R (attempt op) fun r =>
      match r with
      | .ok a => Q a
      | .error e => R.Names e := by
  intro m hm
  rw [ensures_attempt]
  exact hop m hm

/-- A variable of the region that is looked up records constraints of the region. -/
theorem getVariable (hv : v ∈ R.vars) : Confined (W := W) (T := T) R (getVariable v) R.Closes := by
  refine .query (fun s => s.lookupVariable_blameless v) fun s hs x hx => ?_
  unfold Solver.lookupVariable at hx
  cases h : s.variableAt? v with
  | none => rw [h] at hx; cases hx
  | some y =>
    rw [h] at hx
    obtain rfl := Except.ok.inj hx
    exact hs.closes v hv y h

/-- A constraint of the region that is looked up declares variables of the region. -/
theorem getConstraint (hc : c ∈ R.constraints) :
    Confined (W := W) (T := T) R (getConstraint c) R.Spans := by
  refine .query (fun s => s.lookupConstraint_blameless c) fun s hs x hx => ?_
  unfold Solver.lookupConstraint at hx
  cases h : s.constraintAt? c with
  | none => rw [h] at hx; cases hx
  | some y =>
    rw [h] at hx
    obtain rfl := Except.ok.inj hx
    exact hs.spans c hc y h

/-- A variable of the region may be changed if its record stays in the region. -/
theorem changeVariable (hv : v ∈ R.vars) {f : Variable T → Variable T}
    (hf : ∀ x, R.Closes x → R.Closes (f x)) :
    Confined (W := W) R (changeVariable v f) fun _ => True :=
  .bind (.getVariable hv) fun _ _ => .update fun _ hm => hm.modifyVariable hv hf

/-- A constraint of the region may be changed if it declares the same. -/
theorem changeConstraint (hc : c ∈ R.constraints) {f : Constraint W T → Constraint W T}
    (hf : ∀ x, (f x).declared = x.declared) :
    Confined R (changeConstraint c f) fun _ => True :=
  .bind (.getConstraint hc) fun _ _ => .update fun _ hm => hm.modifyConstraint hc hf

/-- An operation that stays inside for each element of a list does so for the whole list. -/
theorem forM {l : List β} {f : β → SolveM W T PUnit}
    (hf : ∀ b ∈ l, Confined R (f b) fun _ => True) : Confined R (l.forM f) fun _ => True := by
  induction l with
  | nil => exact .pure trivial
  | cons b l ih =>
    obtain ⟨hb, hl⟩ := List.forall_mem_cons.1 hf
    exact .bind hb fun _ _ => ih hl

end Confined

/-! ## Walks -/

/-- To execute a constraint changes its output, which its definition mentions. -/
theorem execute_confined (hc : c ∈ R.constraints) (i : Nat) :
    Confined (W := W) (T := T) R (execute c i) fun _ => True := by
  unfold execute
  refine .bind (.getConstraint hc) fun node hnode => ?_
  cases hmethod : node.definition.method? i with
  | none => exact .pure trivial
  | some x =>
    have hout : x.output ∈ R.vars :=
      hnode.vars _ (Definition.output_mem_vars (Definition.mem_of_method? hmethod))
    refine .bind (.query (fun s => s.gather_blameless _) fun _ _ _ _ => trivial) fun inputs _ => ?_
    refine .bind (.runOn x inputs) fun outcome _ => .bind (.count _) fun _ _ => ?_
    refine .bind (.getVariable hout) fun _ _ => ?_
    -- a value or a poison is stored in the output, whose record of constraints stays the same
    cases outcome with
    | assign value =>
      refine .bind (.changeVariable hout fun x hx => ?_) fun _ _ => .note _
      exact hx.of_links rfl
    | keep => exact .note _
    | fail cause =>
      refine .bind (.note _) fun _ _ => .bind (.count _) fun _ _ => ?_
      refine .bind (.changeVariable hout fun x hx => ?_) fun _ _ => .note _
      exact hx.of_links rfl

/-- To recalculate a constraint changes its output. -/
theorem recalculate_confined (hc : c ∈ R.constraints) :
    Confined (W := W) (T := T) R (recalculate c) fun _ => True := by
  unfold recalculate
  refine .bind (.getConstraint hc) fun node hnode => ?_
  split
  · next i output _ hout =>
    refine .bind (.query (fun s => s.walkStrengthOf_blameless _ _) fun _ _ _ _ => trivial)
      fun walk _ => ?_
    refine .bind (.query (fun s => s.constancyOf_blameless _ _) fun _ _ _ _ => trivial)
      fun constant _ => ?_
    refine .bind (.changeVariable (hnode.output? hout) fun x hx => hx.of_links rfl) fun _ _ => ?_
    split
    · exact execute_confined hc _
    · exact .pure trivial
  · exact .pure trivial

/-- The walk stops at a constraint of the region. -/
theorem sweep_confined (mark : Mark) (fuel : Nat) {todo : OrderedSet ConstraintId}
    (htodo : ∀ c ∈ todo, c ∈ R.constraints) :
    Confined (W := W) (T := T) R (sweep mark fuel todo) fun closed =>
      ∀ p, closed = some p → p.1 ∈ R.constraints := by
  -- by induction on the fuel; all constraints that are still to be visited are in the region
  induction fuel generalizing todo with
  | zero => exact .unfinished
  | succ fuel ih =>
    unfold sweep
    split
    · exact .pure nofun
    · next c rest hpop =>
      have hmem : ∀ {k}, k ∈ todo ↔ k = c ∨ k ∈ rest := OrderedSet.mem_of_pop? hpop
      have hc : c ∈ R.constraints := htodo c (hmem.2 (.inl rfl))
      have hrest : ∀ k ∈ rest, k ∈ R.constraints := fun k hk => htodo k (hmem.2 (.inr hk))
      refine .bind (.getConstraint hc) fun node hnode => ?_
      split
      · exact ih hrest
      · next output hout =>
        have hout := hnode.output? hout
        refine .bind (.getVariable hout) fun x _ => ?_
        split
        · refine .pure ?_
          rintro _ ⟨⟩
          exact hc
        · refine .bind (recalculate_confined hc) fun _ _ => .bind (.getVariable hout) fun x hx => ?_
          refine .bind (.ask (Q := fun cs => ∀ k ∈ cs, k ∈ R.constraints) hx.consumers)
            fun cs hcs => ih fun k hk => ?_
          -- what the walk adds reads the output, and is on its record
          rcases OrderedSet.mem_insertAll.1 hk with hk | hk
          · exact hrest k hk
          · exact hcs k hk

/-- The variables that a refresh adds to the walk are outputs of the constraints it refreshes. -/
theorem refresh_confined {cs : List ConstraintId} {todo : OrderedSet VarId}
    (hcs : ∀ c ∈ cs, c ∈ R.constraints) (htodo : ∀ v ∈ todo, v ∈ R.vars) :
    Confined (W := W) (T := T) R (refresh cs todo) fun todo => ∀ v ∈ todo, v ∈ R.vars := by
  induction cs generalizing todo with
  | nil => exact .pure htodo
  | cons c cs ih =>
    obtain ⟨hc, hcs⟩ := List.forall_mem_cons.1 hcs
    unfold refresh
    refine .bind (recalculate_confined hc) fun _ _ => .bind (.getConstraint hc) fun node hnode => ?_
    split
    · exact ih hcs htodo
    · next output hout =>
      refine ih hcs fun v hv => ?_
      rcases OrderedSet.mem_insert.1 hv with hv | rfl
      · exact htodo v hv
      · exact hnode.output? hout

/-- The constraints that the walk finds are in the region. -/
theorem strandedFrom_confined (fuel : Nat) {todo : OrderedSet VarId}
    {found : OrderedSet ConstraintId} (htodo : ∀ v ∈ todo, v ∈ R.vars)
    (hfound : ∀ c ∈ found, c ∈ R.constraints) :
    Confined (W := W) (T := T) R (strandedFrom fuel todo found) fun found =>
      ∀ c ∈ found, c ∈ R.constraints := by
  -- by induction on the fuel, with what is to be visited and what is found so far
  induction fuel generalizing todo found with
  | zero => exact .unfinished
  | succ fuel ih =>
    unfold strandedFrom
    split
    · exact .pure hfound
    · next v rest hpop =>
      have hmem : ∀ {u}, u ∈ todo ↔ u = v ∨ u ∈ rest := OrderedSet.mem_of_pop? hpop
      refine .bind (.getVariable (htodo v (hmem.2 (.inl rfl)))) fun x hx => ?_
      refine .bind (.ask (Q := fun _ => True) fun _ => trivial) fun s _ => ?_
      refine .bind (refresh_confined (hx.consumers s) fun u hu => htodo u (hmem.2 (.inr hu)))
        fun todo htodo => ih htodo fun c hc => ?_
      rcases OrderedSet.mem_insertAll.1 hc with hc | hc
      · exact hfound c hc
      · exact hx.incident c (List.mem_filter.1 hc).1

/-! ## Adding and removing -/

/-- A new mark is not part of the graph. -/
theorem nextMark_confined : Confined (W := W) (T := T) R nextMark fun _ => True :=
  .bind (.update fun _ hm => hm.staysIn (fun _ => rfl) fun _ => rfl) fun _ _ => .ask fun _ => trivial

/-- A constraint is put on record with the variables that it mentions. -/
theorem register_confined (hc : c ∈ R.constraints) :
    Confined (W := W) (T := T) R (register c) fun _ => True := by
  refine .bind (.getConstraint hc) fun node hnode => .forM fun v hv => ?_
  refine .changeVariable (hnode.vars v hv) fun x hx => ⟨fun k hk => ?_, hx.determiner⟩
  rcases OrderedSet.mem_insert.1 hk with hk | rfl
  · exact hx.incident k hk
  · exact hc

/-- A constraint is taken off the record of the variables that it mentions. -/
theorem deregister_confined (hc : c ∈ R.constraints) :
    Confined (W := W) (T := T) R (deregister c) fun _ => True := by
  refine .bind (.getConstraint hc) fun node hnode => .forM fun v hv => .update fun _ hm => ?_
  refine hm.modifyVariable (hnode.vars v hv) fun x hx => ⟨fun k hk => ?_, hx.determiner⟩
  exact hx.incident k (OrderedSet.mem_erase.1 hk).2

/-- The constraint that is displaced was on record. -/
theorem seize_confined (hc : c ∈ R.constraints) (hv : v ∈ R.vars) :
    Confined (W := W) (T := T) R (seize c v) fun displaced =>
      ∀ k, displaced = some k → k ∈ R.constraints := by
  have hdetermine : ∀ x : Variable T, R.Closes x → R.Closes { x with determinedBy := some c } := by
    refine fun x hx => ⟨hx.incident, ?_⟩
    rintro _ ⟨⟩
    exact hc
  unfold seize
  refine .bind (.getVariable hv) fun x hx => ?_
  have hdisplaced := hx.determiner
  -- only a variable that was determined has something to displace, and that was on its record
  cases hd : x.determinedBy with
  | none =>
    refine .bind (.changeVariable hv hdetermine) fun _ _ => .bind (.count _) fun _ _ => ?_
    exact .bind (.note _) fun _ _ => .pure nofun
  | some other =>
    refine .bind (.changeConstraint (hdisplaced other hd) (by intro; rfl)) fun _ _ => ?_
    refine .bind (.count _) fun _ _ => .bind (.note _) fun _ _ => ?_
    refine .bind (.changeVariable hv hdetermine) fun _ _ => .bind (.count _) fun _ _ => ?_
    refine .bind (.note _) fun _ _ => .pure fun k hk => ?_
    exact hdisplaced k (hd.trans hk)

/-- A constraint takes an output that it mentions, and displaces one that was on record there. -/
theorem install_confined (mark : Mark) (hc : c ∈ R.constraints) :
    Confined (W := W) (T := T) R (install mark c) fun installed =>
      ∀ output displaced, installed = some (output, displaced) →
        output ∈ R.vars ∧ ∀ k, displaced = some k → k ∈ R.constraints := by
  unfold install
  refine .bind (.getConstraint hc) fun node hnode => ?_
  refine .bind (.query (Q := fun _ => True) (fun s => s.weakestMethod_blameless mark node.definition)
    fun _ _ _ _ => trivial) fun chosen _ => ?_
  refine .bind (.changeConstraint hc (by intro; rfl)) fun _ _ => ?_
  split
  · split
    · -- a required constraint without a method fails, and names itself
      refine .bind (.count _) fun _ _ => .bind (.throw (Q := fun _ => True) ?_) fun _ _ => ?_
      · rintro _ ⟨⟩
        exact hc
      · exact .bind (.note _) fun _ _ => .pure nofun
    · exact .bind (.note _) fun _ _ => .pure nofun
  · next x hx =>
    obtain ⟨i, _, hi⟩ := Option.bind_eq_some_iff.1 hx
    have hout : x.output ∈ R.vars :=
      hnode.vars _ (Definition.output_mem_vars (Definition.mem_of_method? hi))
    refine .bind (.forM fun v hv => ?_) fun _ _ => ?_
    · exact .changeVariable (hnode.vars v (List.mem_filter.1 hv).1) fun y hy => hy.of_links rfl
    · refine .bind (seize_confined hc hout) fun displaced hdisplaced => .pure ?_
      rintro _ _ ⟨⟩
      exact ⟨hout, hdisplaced⟩

/-- The constraints that are left stranded are in the region. -/
theorem vacate_confined (fuel : Nat) (hv : v ∈ R.vars) :
    Confined (W := W) (T := T) R (vacate fuel v) fun cs => ∀ c ∈ cs, c ∈ R.constraints := by
  refine .bind (.changeVariable hv fun x hx => hx.release) fun _ _ => ?_
  refine .bind (strandedFrom_confined fuel ?_ nofun) fun found hfound => ?_
  · intro u hu
    obtain rfl := OrderedSet.mem_singleton.1 hu
    exact hv
  · exact .ask fun s c hc => hfound c (Solver.mem_rank.1 hc).1

section

variable {remove add : ConstraintId → SolveM W T Unit}

/-- To enforce a constraint stays inside if a removal does, and what it displaces is in the
region. -/
theorem enforce_confined (hremove : ∀ c ∈ R.constraints, Confined R (remove c) fun _ => True)
    (fuel : Nat) (mark : Mark) (hc : c ∈ R.constraints) :
    Confined R (enforce remove fuel mark c) fun displaced =>
      ∀ k, displaced = some k → k ∈ R.constraints := by
  unfold enforce
  refine .bind (install_confined mark hc) fun installed hinstalled => ?_
  split
  · exact .pure nofun
  · next output displaced =>
    obtain ⟨hout, hdisplaced⟩ := hinstalled output displaced rfl
    refine .bind (sweep_confined mark fuel ?_) fun closed hclosed => ?_
    · intro k hk
      obtain rfl := OrderedSet.mem_singleton.1 hk
      exact hc
    · split
      · next closing claimed =>
        -- the constraint that closes a cycle was found by the walk, so its removal stays inside too
        have hclosing := hclosed (closing, claimed) rfl
        refine .bind (.note _) fun _ _ => .bind (.count _) fun _ _ => ?_
        refine .bind (.changeConstraint hclosing (by intro; rfl)) fun _ _ => ?_
        refine .bind (hremove closing hclosing) fun _ _ => .throw ?_
        rintro _ ⟨⟩
        exact hclosing
      · refine .bind (.changeVariable hout fun x hx => hx.of_links rfl) fun _ _ => ?_
        exact .pure hdisplaced

/-- The cascade goes on with a constraint that was displaced, so it stays in the region. -/
theorem displace_confined (hremove : ∀ c ∈ R.constraints, Confined R (remove c) fun _ => True)
    (fuel : Nat) (mark : Mark) (steps : Nat) (hc : c ∈ R.constraints) :
    Confined R (displace remove fuel mark steps c) fun _ => True := by
  -- by induction on the steps of the cascade, for the constraint that is next
  induction steps generalizing c with
  | zero => exact .unfinished
  | succ steps ih =>
    unfold displace
    refine .bind (enforce_confined hremove fuel mark hc) fun displaced hdisplaced => ?_
    split
    · exact .pure trivial
    · next k => exact ih (hdisplaced k rfl)

/-- A failure that is kept while other constraints are added comes out in the end. -/
theorem readd_confined (hadd : ∀ c ∈ R.constraints, Confined R (add c) fun _ => True)
    {cs : List ConstraintId} {failure : Option SolveError} (hcs : ∀ c ∈ cs, c ∈ R.constraints)
    (hfailure : ∀ e, failure = some e → R.Names e) :
    Confined R (readd add cs failure) fun _ => True := by
  induction cs generalizing failure with
  | nil =>
    cases failure with
    | none => exact .pure trivial
    | some e => exact .throw (hfailure e rfl)
  | cons c cs ih =>
    obtain ⟨hc, hcs⟩ := List.forall_mem_cons.1 hcs
    unfold readd
    refine .bind (.getConstraint hc) fun node _ => ?_
    split
    · refine .bind (.attempt (hadd c hc)) fun r hr => ?_
      cases r with
      | ok _ => exact ih hcs hfailure
      | error e =>
        refine ih hcs fun e' he' => ?_
        cases failure with
        -- the first failure is the one that is kept
        | none =>
          obtain rfl := Option.some.inj he'
          exact hr
        | some first => exact hfailure e' he'
    · exact ih hcs hfailure

/-- To withdraw a constraint stays inside if the additions that follow do. -/
theorem withdraw_confined (hadd : ∀ c ∈ R.constraints, Confined R (add c) fun _ => True)
    (fuel : Nat) (hc : c ∈ R.constraints) : Confined R (withdraw add fuel c) fun _ => True := by
  unfold withdraw
  refine .bind (.getConstraint hc) fun node hnode => ?_
  refine .bind (.changeConstraint hc (by intro; rfl)) fun _ _ => ?_
  refine .bind (deregister_confined hc) fun _ _ => ?_
  split
  · exact .pure trivial
  · next output hout =>
    refine .bind (.note _) fun _ _ => .bind (vacate_confined fuel (hnode.output? hout))
      fun cs hcs => readd_confined hadd hcs nofun

end

/-- To add a constraint of the region stays inside. -/
theorem add_confined (fuel : Nat) (hc : c ∈ R.constraints) :
    Confined (W := W) (T := T) R (add fuel c) fun _ => True := by
  -- adding and removing call each other; each round of this uses up fuel
  induction fuel generalizing c with
  | zero => exact .unfinished
  | succ fuel ih =>
    refine .bind nextMark_confined fun mark _ => ?_
    exact displace_confined (fun k hk => withdraw_confined (fun _ => ih) fuel hk) fuel mark fuel hc

/-- To remove a constraint of the region stays inside. -/
theorem remove_confined (fuel : Nat) (hc : c ∈ R.constraints) :
    Confined (W := W) (T := T) R (remove fuel c) fun _ => True :=
  withdraw_confined (fun _ => add_confined fuel) fuel hc

/-! ## Enabling and disabling -/

/-- A constraint that is disabled is removed if it is enforced, and else only taken off the
record. -/
theorem leave_confined (fuel : Nat) (hc : c ∈ R.constraints) (node : Constraint W T) :
    Confined (W := W) (T := T) R (if node.isEnforcing then remove fuel c else deregister c)
      fun _ => True := by
  split
  · exact remove_confined fuel hc
  · exact deregister_confined hc

/-- After a rollback the constraint that had failed is added again, and a failure of this is
noted. -/
theorem restore_confined (fuel : Nat) {failed : ConstraintId} (hfailed : failed ∈ R.constraints) :
    Confined (W := W) (T := T) R (restore fuel c failed) fun _ => True := by
  refine .bind (.ask (Q := fun _ => True) fun _ => trivial) fun stranded _ => ?_
  split
  · refine .bind (.attempt (add_confined fuel hfailed)) fun r _ => ?_
    cases r with
    | ok _ => exact .pure trivial
    | error e => exact .note _
  · exact .pure trivial

/-- To take an enabling back stays inside, whatever fails on the way. -/
theorem rollBackEnable_confined (fuel : Nat) {failed : ConstraintId} (hc : c ∈ R.constraints)
    (hfailed : failed ∈ R.constraints) :
    Confined (W := W) (T := T) R (rollBackEnable fuel c failed) fun _ => True := by
  unfold rollBackEnable
  refine .bind (.note _) fun _ _ => .bind (.ask (Q := fun _ => True) fun _ => trivial) fun found _ => ?_
  cases found with
  | none => exact .pure trivial
  | some node =>
    refine .bind (.changeConstraint hc (by intro; rfl)) fun _ _ => ?_
    refine .bind (.attempt (leave_confined fuel hc node)) fun undo _ => ?_
    -- a failure to undo is noted, and the other constraint is restored all the same
    cases undo with
    | ok _ => exact restore_confined fuel hfailed
    | error e => exact .bind (.note _) fun _ _ => restore_confined fuel hfailed

/-- What is taken back was enabled for the sake of a constraint of the region that failed. -/
theorem settle_confined (fuel : Nat) (hc : c ∈ R.constraints) :
    Confined (W := W) (T := T) R (settle fuel c) fun _ => True := by
  refine .bind (.attempt (add_confined fuel hc)) fun r hr => ?_
  split
  · exact .pure trivial
  · next failed =>
    have hfailed := hr failed rfl
    refine .bind (rollBackEnable_confined fuel hc hfailed) fun _ _ => .throw hr
  · exact .throw hr

/-- A constraint becomes enabled, and is put on record with its variables. -/
theorem enter_confined (hc : c ∈ R.constraints) :
    Confined (W := W) (T := T) R (enter c) fun _ => True := by
  refine .bind (.changeConstraint hc (by intro; rfl)) fun _ _ => .bind (register_confined hc) fun _ _ => ?_
  refine .bind (.update ?_) fun _ _ => .bind (.count _) fun _ _ => .note _
  exact fun _ hm => hm.staysIn (fun _ => rfl) fun _ => rfl

/-- To enable a constraint of the region stays inside. -/
theorem enable_confined (fuel : Nat) (hc : c ∈ R.constraints) :
    Confined (W := W) (T := T) R (enable fuel c) fun _ => True := by
  rw [enable_eq]
  refine .bind (.getConstraint hc) fun node _ => ?_
  split
  · exact .pure trivial
  · refine .bind (enter_confined hc) fun _ _ => settle_confined fuel hc

/-- To disable a constraint of the region stays inside. -/
theorem disable_confined (fuel : Nat) (hc : c ∈ R.constraints) :
    Confined (W := W) (T := T) R (disable fuel c) fun _ => True := by
  unfold disable
  refine .bind (.getConstraint hc) fun node _ => ?_
  split
  · exact .pure trivial
  · refine .bind (.changeConstraint hc (by intro; rfl)) fun _ _ => ?_
    refine .bind (.update ?_) fun _ _ => ?_
    · exact fun _ hm => hm.staysIn (fun _ => rfl) fun _ => rfl
    · exact .bind (.count _) fun _ _ => .bind (.note _) fun _ _ => leave_confined fuel hc node

/-! ## Forgetting -/

/-- A constraint of the region may be forgotten. -/
theorem forget_confined (hc : c ∈ R.constraints) :
    Confined (W := W) (T := T) R (update fun s => { s with constraints := s.constraints.erase c })
      fun _ => True :=
  .update fun _ hm => hm.eraseConstraint hc

/-- A constraint of the region may be forgotten together with its sink. -/
theorem discard_confined (hc : c ∈ R.constraints) :
    Confined (W := W) (T := T) R (discard c) fun _ => True := by
  refine .update fun s hm => ?_
  cases hs : (s.constraintAt? c).bind Constraint.sink with
  | none => exact hm.eraseConstraint hc
  | some sink =>
    obtain ⟨node, hnode, hsink⟩ := Option.bind_eq_some_iff.1 hs
    -- the sink was declared by the constraint, so it is in the region as well
    have herase := hm.eraseConstraint hc
    exact herase.trans (herase.encloses.eraseVariable ((hm.spans c hc node hnode).sink sink hsink))

/-- A failure to disable the constraint comes out after the constraint has been discarded. -/
theorem removeConstraint_confined (fuel : Nat) (hc : c ∈ R.constraints) :
    Confined (W := W) (T := T) R (removeConstraint fuel c) fun _ => True := by
  refine .bind (.getConstraint hc) fun _ _ => ?_
  refine .bind (.attempt (disable_confined fuel hc)) fun result hresult => ?_
  exact .bind (discard_confined hc) fun _ _ => .bind (.note _) fun _ _ => .handOut hresult

/-- To enable a constraint for a moment stays inside. -/
theorem pulse_confined (fuel : Nat) (hc : c ∈ R.constraints) :
    Confined (W := W) (T := T) R (pulse fuel v c) fun _ => True := by
  refine .bind (.count _) fun _ _ => .bind (.note _) fun _ _ => ?_
  refine .bind (.attempt (enable_confined fuel hc)) fun result hresult => ?_
  refine .bind (.attempt (disable_confined fuel hc)) fun cleanup hcleanup => ?_
  refine .bind (forget_confined hc) fun _ _ => ?_
  exact .bind (.handOut hresult) fun _ _ => .handOut hcleanup

/-- A value that is written directly changes one variable of the region. -/
theorem writeDirectly_confined (hv : v ∈ R.vars) (value : T) :
    Confined (W := W) R (writeDirectly v value) fun _ => True :=
  .bind (.changeVariable hv fun _ hx => hx.of_links rfl) fun _ _ =>
    .bind (.count _) fun _ _ => .note _

end SolveM

end DeltaBlue
