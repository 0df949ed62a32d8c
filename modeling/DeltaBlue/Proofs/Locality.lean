import DeltaBlue.Proofs.Declarations
import DeltaBlue.Proofs.Forest
import DeltaBlue.Proofs.Region

/-!
# Locality

Enabling, disabling and removing a constraint and writing a variable change nothing outside the
connected component of the constraint or of the variable, in the graph that joins the enabled
constraints to the variables that they mention. The component is a region that the solver encloses: a
variable has only enabled constraints on record, and these mention it. So every operation that begins
with the constraint or the variable stays inside. The constraint that a value is written through is
new, mentions the variable that is written, and is gone in the end.
-/

namespace DeltaBlue

variable {W T : Type}

/-- The region together with one more constraint. -/
def Region.adjoin (R : Region) (c : ConstraintId) : Region := ⟨R.vars, insert c R.constraints⟩

/-- The constraint that a call enables, disables or removes, or the variable that it writes. -/
def Call.origin? : Call W T → Option (ConstraintId ⊕ VarId)
  | enable c | disable c | removeConstraint c => some (.inl c)
  | write v _ => some (.inr v)
  | _ => none

namespace Solver

variable {s s' : Solver W T} {R : Region} {root : ConstraintId ⊕ VarId} {c k : ConstraintId}
  {v w : VarId}

/-- The graph that joins the enabled constraints, and the given one, to the variables that they
mention. -/
def joined (s : Solver W T) (root : ConstraintId ⊕ VarId) : SimpleGraph (ConstraintId ⊕ VarId) :=
  s.incidence fun k => s.Enabled k ∨ root = .inl k

/-- The variables and constraints that are connected with the given constraint or variable. -/
def component (s : Solver W T) (root : ConstraintId ⊕ VarId) : Region where
  vars := {v | (s.joined root).Reachable root (.inr v)}
  constraints := {c | (s.joined root).Reachable root (.inl c)}

/-- A constraint of a component is enabled, or the component is its own. -/
theorem enabled_of_mem_component (hc : c ∈ (s.component root).constraints) :
    s.Enabled c ∨ root = .inl c := by
  obtain ⟨p⟩ := SimpleGraph.Reachable.symm hc
  -- a way that has an edge leaves the constraint over a variable that it mentions, so it is enabled
  -- or the root
  cases p with
  | nil => exact .inr rfl
  | @cons _ u _ hadj p =>
    cases u with
    | inl k => simp [joined, incidence] at hadj
    | inr v => exact (incidence_adj.1 hadj).1

/-- A component contains the variables of its constraints. -/
theorem mem_component_of_mentions (hc : c ∈ (s.component root).constraints)
    (hv : s.Mentions c v) : v ∈ (s.component root).vars := by
  have hadj : (s.joined root).Adj (.inl c) (.inr v) :=
    incidence_adj.2 ⟨enabled_of_mem_component hc, hv⟩
  exact SimpleGraph.Reachable.trans hc hadj.reachable

/-- A component contains the enabled constraints that mention its variables. -/
theorem mem_component_of_enabled (hv : v ∈ (s.component root).vars) (hc : s.Enabled c)
    (hcv : s.Mentions c v) : c ∈ (s.component root).constraints := by
  have hadj : (s.joined root).Adj (.inr v) (.inl c) := incidence_adj_symm.2 ⟨.inl hc, hcv⟩
  exact SimpleGraph.Reachable.trans hv hadj.reachable

/-- What the nodes of a component have on record lies in the component. -/
theorem WellFormed.encloses_component (h : s.WellFormed) (hsinks : s.SinksMentioned)
    (root : ConstraintId ⊕ VarId) : s.Encloses (s.component root) where
  closes v hv x hx :=
    { incident := by
        intro c hc
        -- only enabled constraints are on record with a variable
        obtain ⟨node, hnode, hen, hmem⟩ := (h.incident hx c).1 hc
        exact mem_component_of_enabled hv ⟨node, hnode, hen⟩ ⟨node, hnode, hmem⟩
      determiner := by
        intro c hc
        have hdet := (h.determined hx c).1 hc
        have hen := h.enabled_of_determines hdet
        obtain ⟨node, hnode, hout⟩ := hdet
        exact mem_component_of_enabled hv hen ⟨node, hnode, Constraint.mem_vars_of_output? hout⟩ }
  spans c hc node hnode :=
    { vars := fun v hv => mem_component_of_mentions hc ⟨node, hnode, hv⟩
      sink := fun v hv => mem_component_of_mentions hc ⟨node, hnode, hsinks c node hnode v hv⟩ }

/-- A constraint is stored whose variables are in the region. -/
theorem Encloses.stored (h : s.Encloses R) {node : Constraint W T}
    (hstored : s.Stored s' node (.ok c)) (hvars : ∀ v, s'.variableAt? v = s.variableAt? v)
    (hnode : R.Spans node) : s'.Encloses (R.adjoin c) where
  closes v hv x hx := by
    have hx := h.closes v hv x ((hvars v).symm.trans hx)
    exact ⟨fun k hk => .inr (hx.incident k hk), fun k hk => .inr (hx.determiner k hk)⟩
  spans k hk n hn := by
    rw [hstored.2] at hn
    -- the new constraint spans the region, and the others are as they were
    by_cases hkc : k = c
    · rw [if_pos hkc] at hn
      obtain rfl := Option.some.inj hn
      exact ⟨hnode.vars, hnode.sink⟩
    · rw [if_neg hkc] at hn
      have hn := h.spans k (hk.resolve_left hkc) n hn
      exact ⟨hn.vars, hn.sink⟩

/-! ## Telling components apart -/

/-- Whether no constraint mentions both a variable that passes the test and one that does not. -/
def isSplitBy (s : Solver W T) (inside : VarId → Bool) : Bool :=
  s.constraints.toList.all fun p =>
    p.2.definition.vars.all inside || p.2.definition.vars.all fun v => !inside v

/-- The test tells what is connected with a variable that passes it. -/
theorem inside_of_mem_component {inside : VarId → Bool} (h : s.isSplitBy inside = true)
    (hv : inside v = true) :
    (∀ w ∈ (s.component (.inr v)).vars, inside w = true) ∧
    ∀ k ∈ (s.component (.inr v)).constraints, ∀ w, s.Mentions k w → inside w = true := by
  -- all variables of a constraint pass the test if one does
  have hsplit : ∀ {k u w}, s.Mentions k u → s.Mentions k w → inside u = true → inside w = true := by
    rintro k u w ⟨node, hnode, hu⟩ ⟨node', hnode', hw⟩ hin
    obtain rfl := Option.some.inj (hnode.symm.trans hnode')
    have hk := List.all_eq_true.1 h _ (Arena.mem_toList.2 hnode)
    rw [Bool.or_eq_true, List.all_eq_true, List.all_eq_true] at hk
    rcases hk with hall | hnone
    · exact hall w hw
    · have hout := hnone u hu
      rw [hin] at hout
      cases hout
  -- an edge joins a constraint and a variable that it mentions, so the test is passed on
  have hside : ∀ {x y}, (s.joined (.inr v)).Adj x y →
      Sum.elim (fun k => ∀ w, s.Mentions k w → inside w = true) (fun w => inside w = true) x →
      Sum.elim (fun k => ∀ w, s.Mentions k w → inside w = true) (fun w => inside w = true) y := by
    rintro (k | u) (j | w) hadj hx
    · simp [joined, incidence] at hadj
    · exact hx w (incidence_adj.1 hadj).2
    · exact fun w hw => hsplit (incidence_adj_symm.1 hadj).2 hw hx
    · simp [joined, incidence] at hadj
  -- and so it is along every way
  have hwalk : ∀ {x y}, (s.joined (.inr v)).Walk x y →
      Sum.elim (fun k => ∀ w, s.Mentions k w → inside w = true) (fun w => inside w = true) x →
      Sum.elim (fun k => ∀ w, s.Mentions k w → inside w = true) (fun w => inside w = true) y := by
    intro x y p hx
    induction p with
    | nil => exact hx
    | cons hadj _ ih => exact ih (hside hadj hx)
  exact ⟨fun w hw => hw.elim fun p => hwalk p hv, fun k hk => hk.elim fun p => hwalk p hv⟩

end Solver

namespace SolveM

open Solver (AgreesOutside)

variable {R : Region} {m : Machine W T} {v : VarId} {c : ConstraintId}

/-- What is confined to a region changes nothing outside. -/
theorem Confined.agreesOutside {α : Type} {op : SolveM W T α} {Q : α → Prop} (h : Confined R op Q)
    (hm : m.solver.Encloses R) : Ensures op m fun _ m' => AgreesOutside R m.solver m'.solver :=
  (h m hm).mono fun _ _ hs => hs.1.toAgreesOutside

/-- The constraint that the value is written through is made and forgotten; all else happens inside. -/
theorem ensures_writeThrough_agrees (fuel : Nat) (value : T) (hm : m.solver.Encloses R)
    (hv : v ∈ R.vars) :
    Ensures (writeThrough fuel v value) m fun _ m' => AgreesOutside R m.solver m'.solver := by
  rw [writeThrough_eq, ensures_bind, ensures_ask]
  simp only
  rw [ensures_bind]
  refine (ensures_storeConstraint_stored _).mono ?_
  rintro r m₁ ⟨hstored, hvars⟩
  cases r with
  | error e => exact ⟨fun u _ => hvars u, fun k _ => hstored k⟩
  | ok c =>
    -- the new constraint mentions only the variable that is written
    have hspans : R.Spans ({ definition := .edit m.solver.config.writeStrength (some "write") v value } :
        Constraint W T) := by
      refine ⟨fun u hu => ?_, nofun⟩
      obtain rfl : u = v := by
        simpa [Definition.vars, Definition.edit, Definition.ofMethod, mentioned, Method.vars,
          Method.edit, ← OrderedSet.mem_def, OrderedSet.mem_ofList] using hu
      exact hv
    have hm₁ := hm.stored hstored hvars hspans
    have hpulse := pulse_confined (W := W) (T := T) (v := v) fuel (R := R.adjoin c)
      (Set.mem_insert c R.constraints)
    refine ((hpulse.agreesOutside hm₁).and (ensures_pulse_gone fuel v c)).mono ?_
    rintro r m' ⟨hagrees, hgone⟩
    refine ⟨fun u hu => (hagrees.variableAt u hu).trans (hvars u), fun k hk => ?_⟩
    obtain ⟨hfree, hstored⟩ := hstored
    -- the constraint was not there before and is not there in the end
    by_cases hkc : k = c
    · rw [hkc, hgone, hfree]
    · rw [hagrees.constraintAt k (fun hmem => hk (hmem.resolve_left hkc)), hstored, if_neg hkc]

/-- A write to a variable of a region changes nothing outside, in whichever way it writes. -/
theorem ensures_write_agrees (fuel : Nat) (value : T) (hm : m.solver.Encloses R) (hv : v ∈ R.vars) :
    Ensures (write fuel v value) m fun _ m' => AgreesOutside R m.solver m'.solver := by
  have hsame : AgreesOutside R m.solver m.solver := ⟨fun _ _ => rfl, fun _ _ => rfl⟩
  unfold write
  rw [ensures_bind, ensures_getVariable]
  cases m.solver.lookupVariable v with
  | error e => exact hsame
  | ok x =>
    simp only [ensures_bind, ensures_ask]
    split
    · exact (writeDirectly_confined hv value).agreesOutside hm
    · exact ensures_writeThrough_agrees fuel value hm hv

end SolveM

/-- A call that begins inside a region that the solver encloses changes nothing outside. -/
theorem Call.ensures_agreesOutside {m : Machine W T} {call : Call W T} {R : Region}
    {root : ConstraintId ⊕ VarId} (fuel : Nat) (horigin : call.origin? = some root)
    (hm : m.solver.Encloses R) (hroot : Sum.elim (· ∈ R.constraints) (· ∈ R.vars) root) :
    SolveM.Ensures (call.run fuel) m fun _ m' => m.solver.AgreesOutside R m'.solver := by
  -- the four calls with an origin are confined to a region in which they begin
  cases call with
  | enable c =>
    obtain rfl := Option.some.inj horigin
    exact ensures_answer (f := fun _ => .done) ((SolveM.enable_confined fuel hroot).agreesOutside hm)
  | disable c =>
    obtain rfl := Option.some.inj horigin
    exact ensures_answer (f := fun _ => .done) ((SolveM.disable_confined fuel hroot).agreesOutside hm)
  | removeConstraint c =>
    obtain rfl := Option.some.inj horigin
    exact ensures_answer (f := fun _ => .done)
      ((SolveM.removeConstraint_confined fuel hroot).agreesOutside hm)
  | write v value =>
    obtain rfl := Option.some.inj horigin
    exact ensures_answer (f := fun _ => .done) (SolveM.ensures_write_agrees fuel value hm hroot)
  | _ => cases horigin

namespace Run

/-- A call that enables, disables or removes a constraint or writes a variable, whether it succeeds or
fails, leaves every variable and every constraint as it is that is not connected with the constraint
or the variable over the constraints that were enabled before. -/
theorem unchanged_outside_component {own : Prop} {config : Config} {plans : List (Plan × Nat)}
    {m m' : Machine W T} {call : Call W T} {root : ConstraintId ⊕ VarId} {fuel : Nat}
    {r : Except SolveError (Answer W T)} (h : Run own config plans m)
    (horigin : call.origin? = some root) (hrun : (call.run fuel).exec m = some (r, m')) :
    (∀ v, v ∉ (m.solver.component root).vars →
      m'.solver.variableAt? v = m.solver.variableAt? v) ∧
    ∀ c, c ∉ (m.solver.component root).constraints →
      m'.solver.constraintAt? c = m.solver.constraintAt? c := by
  have hencloses : m.solver.Encloses (m.solver.component root) :=
    h.sound.1.toWellFormed.encloses_component h.sinksMentioned root
  have hroot : Sum.elim (· ∈ (m.solver.component root).constraints)
      (· ∈ (m.solver.component root).vars) root := by
    cases root with
    | inl c => exact SimpleGraph.Reachable.refl _
    | inr v => exact SimpleGraph.Reachable.refl _
  have hagrees := Call.ensures_agreesOutside fuel horigin hencloses hroot r m' hrun
  exact ⟨hagrees.variableAt, hagrees.constraintAt⟩

/-- A variable that another one copies is written: a third variable, which is held by a constraint of
its own, stays as it is, and so does that constraint. -/
theorem unchanged_outside_component_copied : ∃ m m' : Machine Unit Nat,
    Call.runAll 9 [.newVariables [1, 2, 3],
      .constrain (.ofMethod .weak none (.compute ⟨1, 0⟩ [⟨0, 0⟩] .first) ⟨by decide, by decide⟩),
      .stay ⟨2, 0⟩ .medium] ⟨.empty {}, (), []⟩ = some m ∧
    ((Call.write ⟨0, 0⟩ 7).run 9).exec m = some (.ok .done, m') ∧
    (m'.solver.variableAt? ⟨1, 0⟩).any (fun x => x.cell = .assigned 7) = true ∧
    ⟨2, 0⟩ ∉ (m.solver.component (.inr ⟨0, 0⟩)).vars ∧
    m'.solver.variableAt? ⟨2, 0⟩ = m.solver.variableAt? ⟨2, 0⟩ ∧
    m'.solver.constraintAt? ⟨1, 0⟩ = m.solver.constraintAt? ⟨1, 0⟩ := by
  have hany : (Call.runAll (W := Unit) (T := Nat) 9 [.newVariables [1, 2, 3],
      .constrain (.ofMethod .weak none (.compute ⟨1, 0⟩ [⟨0, 0⟩] .first) ⟨by decide, by decide⟩),
      .stay ⟨2, 0⟩ .medium] ⟨.empty {}, (), []⟩).any (fun m =>
        m.solver.isSplitBy (fun v => v.index < 2) ∧
        ((m.solver.constraintAt? ⟨1, 0⟩).any fun n => ⟨2, 0⟩ ∈ n.definition.vars) ∧
        (((Call.write ⟨0, 0⟩ 7).run 9).exec m).any fun p =>
          Call.isDone p.1 ∧
            (p.2.solver.variableAt? ⟨1, 0⟩).any fun x => x.cell = .assigned 7) = true := by
    decide +kernel
  simp only [Option.any_eq_true, decide_eq_true_eq] at hany
  obtain ⟨m, hm, hsplit, ⟨n, hn, hmem⟩, ⟨r, m'⟩, hrun, hr, x, hx, hcell⟩ := hany
  obtain rfl := Call.eq_done_of_isDone hr
  have hstart : Run False {} [] (⟨.empty {}, (), []⟩ : Machine Unit Nat) := .start ()
  obtain ⟨plans, h⟩ := runAll hstart (by decide) hm
  obtain ⟨hvars, hconstraints⟩ := unchanged_outside_component h rfl hrun
  obtain ⟨hin, hinside⟩ := Solver.inside_of_mem_component hsplit (v := ⟨0, 0⟩) (by decide)
  have hout : ⟨2, 0⟩ ∉ (m.solver.component (.inr ⟨0, 0⟩)).vars := fun hv => by
    have := hin _ hv
    cases this
  refine ⟨m, m', hm, hrun, ?_, hout, hvars _ hout, hconstraints _ fun hc => ?_⟩
  · rw [hx]
    exact decide_eq_true hcell
  · have := hinside _ hc ⟨2, 0⟩ ⟨n, hn, hmem⟩
    cases this

end Run

end DeltaBlue
