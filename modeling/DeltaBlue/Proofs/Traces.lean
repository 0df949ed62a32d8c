import DeltaBlue.Proofs.Declarations

/-!
# What leaves no trace

The constraint that a value is written through is there only for the time of the write, and one that
cannot be enabled is removed again, an observer together with its sink. Whatever happens in the
meantime, and even if the cleaning up fails midway, neither enabling nor disabling changes what is
declared or which variables exist. So in the end the variables and the constraints with their
definitions are the ones that there were in the beginning; and as the graph is sound, no variable has
a constraint on record that did not exist before.
-/

namespace DeltaBlue

variable {W T : Type}

/-- Whether a call leaves nothing behind: a write, or a failure to make a constraint. -/
def Call.isTransient : Call W T → Except SolveError (Answer W T) → Bool
  | write _ _, _ => true
  | constrain _, .error _ | stay _ _, .error _ | edit _ _ _, .error _ | observe _ _, .error _ => true
  | _, _ => false

namespace Solver

variable {s s' s'' : Solver W T} {c : ConstraintId} {node : Constraint W T}

/-- A constraint that is stored and then forgotten, with its sink if it has one, leaves no trace among
the constraints, and none among the variables but that of the sink. -/
theorem Stored.forgets (hstored : s.Stored s' node (.ok c))
    (hvars : ∀ v, s'.variableAt? v = s.variableAt? v) (hf : s'.Forgets s'' c) :
    s.Redeclares s'' ∧ ∀ v, (s''.variableAt? v).isSome = true ↔
      (s.variableAt? v).isSome = true ∧ node.sink ≠ some v := by
  obtain ⟨hfree, hstored⟩ := hstored
  refine ⟨fun k => ?_, fun v => ?_⟩
  · rw [hf.declared, hstored]
    -- the constraint is gone as it was before it was stored, and the others are not concerned
    by_cases hk : k = c
    · rw [if_pos hk, hk, hfree]
      rfl
    · rw [if_neg hk, if_neg hk]
  · rw [hf.live, hvars, hstored, if_pos rfl, Option.bind_some]

/-- A constraint without a sink leaves no trace at all. -/
theorem Stored.stands (hstored : s.Stored s' node (.ok c))
    (hvars : ∀ v, s'.variableAt? v = s.variableAt? v) (hf : s'.Forgets s'' c)
    (hsink : node.sink = none) : s.Stands s'' := by
  obtain ⟨hdeclared, hlive⟩ := hstored.forgets hvars hf
  refine ⟨hdeclared, fun v => Bool.eq_iff_iff.2 ((hlive v).trans ?_)⟩
  rw [hsink]
  exact and_iff_left nofun

end Solver

namespace SolveM

open Solver (Stands)

variable {m : Machine W T}

/-- The constraint that a value is written through is forgotten. -/
theorem ensures_pulse_forgets (fuel : Nat) (v : VarId) {c : ConstraintId}
    (hsink : (m.solver.constraintAt? c).bind Constraint.sink = none) :
    Ensures (pulse fuel v c) m fun _ m' => m.solver.Forgets m'.solver c := by
  unfold pulse
  simp only [ensures_bind, ensures_count, ensures_note, ensures_attempt, ensures_update,
    ensures_query]
  refine (enable_obeys (stands_frame c) fuel _).mono fun result m₁ h₁ => ?_
  refine (disable_obeys (stands_frame c).toLeaveFrame fuel m₁).mono fun cleanup m₂ h₂ => ?_
  -- enabling and disabling declare nothing and make no variable, also where they fail
  have hs : m.solver.Stands m₂.solver := Stands.transitive.trans ⟨h₁.declared, h₁.live⟩ h₂
  have hforgets := hs.forgets (Solver.forgets_eraseConstraint ((hs.sink_eq c).trans hsink))
  cases result <;> exact hforgets

/-- Writing leaves no trace, whether it succeeds or fails. -/
theorem write_stands (fuel : Nat) (v : VarId) (value : T) :
    Obeys (W := W) Stands (write fuel v value) := by
  have hT := Stands.transitive (W := W) (T := T)
  refine .bind hT (.getVariable hT v) fun x => .bind hT (.ask hT _) fun direct => ?_
  split
  · -- a value that is stored at once needs no constraint
    refine .bind hT (.changeVariable hT fun s => ?_) fun _ => ?_
    · exact (Solver.propagates_modifyVariable _ v s).stands
    · exact .bind hT (.update fun s => ⟨fun _ => rfl, fun _ => rfl⟩) fun _ => .note hT _
  · rw [writeThrough_eq]
    refine .bind hT (.ask hT _) fun strength m => ?_
    rw [ensures_bind]
    refine (ensures_storeConstraint_stored _).mono ?_
    rintro r m₁ ⟨hstored, hvars⟩
    cases r with
    | error e => exact ⟨fun k => congrArg _ (hstored k), fun u => congrArg _ (hvars u)⟩
    | ok c =>
      have hsink : (m₁.solver.constraintAt? c).bind Constraint.sink = none := by
        rw [hstored.2, if_pos rfl]
        rfl
      exact (ensures_pulse_forgets fuel v hsink).mono fun _ _ hf => hstored.stands hvars hf rfl

/-- A constraint that cannot be made and enabled leaves no trace. -/
theorem ensures_constrain_stands (fuel : Nat) (d : Definition W T) :
    Ensures (constrain fuel d) m fun r m' => ∀ e, r = .error e → m.solver.Stands m'.solver := by
  unfold constrain
  rw [ensures_bind]
  refine (ensures_insert_stored d).mono ?_
  rintro r m₁ ⟨hstored, hvars⟩
  cases r with
  | error e => exact fun _ _ => ⟨fun k => congrArg _ (hstored k), fun u => congrArg _ (hvars u)⟩
  | ok c =>
    refine (ensures_enableOrRemove_declared fuel c).mono ?_
    rintro _ m' hf e rfl
    exact hstored.stands hvars hf rfl

/-- An observer that cannot be made and enabled leaves no trace, and neither does its sink. -/
theorem ensures_observe_stands (fuel : Nat) (inputs : List VarId) (f : Observe W T) :
    Ensures (observe fuel inputs f) m fun r m' => ∀ e, r = .error e → m.solver.Stands m'.solver := by
  unfold observe newUnassigned
  rw [ensures_bind]
  refine (ensures_storeVariable_made _).mono ?_
  rintro r m₁ ⟨hmade, hconstraints⟩
  cases r with
  | error e => exact fun _ _ => ⟨fun k => congrArg _ (hconstraints k), fun u => congrArg _ (hmade u)⟩
  | ok sink =>
    obtain ⟨hfree, hmade⟩ := hmade
    -- without the sink the variables are those of the beginning
    have hlive : ∀ v, (m₁.solver.variableAt? v).isSome = true ∧ some sink ≠ some v ↔
        (m.solver.variableAt? v).isSome = true := by
      intro v
      rw [hmade]
      by_cases hv : v = sink
      · rw [if_pos hv, hv, hfree]
        exact iff_of_false (fun h => h.2 rfl) nofun
      · rw [if_neg hv]
        exact and_iff_left fun he => hv (Option.some.inj he).symm
    simp only [ensures_bind, ensures_attempt]
    refine (ensures_insertObserver_stored sink inputs f).mono ?_
    rintro result m₂ ⟨hvars, hstored⟩
    cases result with
    | ok c =>
      obtain ⟨d, _, hstored⟩ := hstored
      refine (ensures_enableOrRemove_declared fuel c).mono ?_
      rintro _ m₃ hf e rfl
      obtain ⟨hdeclared, hlive₃⟩ := hstored.forgets hvars hf
      -- the sink goes with its constraint
      refine ⟨fun k => (hdeclared k).trans (congrArg _ (hconstraints k)), fun v => ?_⟩
      exact Bool.eq_iff_iff.2 ((hlive₃ v).trans (hlive v))
    | error e =>
      simp only [ensures_bind, ensures_update, ensures_throw]
      refine fun _ _ => ⟨fun k => congrArg _ ((hstored k).trans (hconstraints k)), fun v => ?_⟩
      refine Bool.eq_iff_iff.2 (Iff.trans ?_ (hlive v))
      change ((m₂.solver.vars.erase sink).get? v).isSome = true ↔ _
      rw [Arena.get?_erase, ← hvars]
      by_cases hv : v = sink
      · rw [if_pos hv, hv]
        exact iff_of_false nofun fun h => h.2 rfl
      · rw [if_neg hv]
        exact (and_iff_left fun he => hv (Option.some.inj he).symm).symm

end SolveM

/-- What an operation comes to that ends with an answer, if it fails. -/
theorem Call.ensures_answer_error {α : Type} {m : Machine W T} {op : SolveM W T α}
    {f : α → Answer W T} {Q : Machine W T → Prop}
    (h : SolveM.Ensures op m fun r m' => ∀ e, r = .error e → Q m') :
    SolveM.Ensures (do return f (← op)) m fun r m' => ∀ e, r = .error e → Q m' := by
  refine ensures_return (h.mono fun r m' hm' => ?_)
  cases r with
  | ok a => exact nofun
  | error e => exact fun _ _ => hm' e rfl

/-- A call that leaves nothing behind changes neither the variables nor what is declared. -/
theorem Call.stands_of_isTransient {m m' : Machine W T} {call : Call W T} {fuel : Nat}
    {r : Except SolveError (Answer W T)} (hcall : call.isTransient r = true)
    (hrun : (call.run fuel).exec m = some (r, m')) : m.solver.Stands m'.solver := by
  -- a write leaves no trace in any case, and the others leave none if they fail
  cases call with
  | write v value =>
    exact ensures_answer (f := fun _ => .done) (SolveM.write_stands fuel v value m) r m' hrun
  | constrain d | stay v strength | edit v value strength =>
    cases r with
    | ok a => cases hcall
    | error e => exact ensures_answer_error (SolveM.ensures_constrain_stands fuel _) _ m' hrun e rfl
  | observe inputs f =>
    cases r with
    | ok a => cases hcall
    | error e => exact ensures_answer_error (SolveM.ensures_observe_stands fuel inputs f) _ m' hrun e rfl
  | _ => cases hcall

namespace Run

/-- A write, whether it succeeds or fails, and a constraint or an observer that cannot be made and
enabled leave no trace: the variables and the constraints are those that there were before the call,
with the same definitions, and no variable has a constraint on record that did not exist before. -/
theorem leaves_no_trace {own : Prop} {config : Config} {plans : List (Plan × Nat)}
    {m m' : Machine W T} {call : Call W T} {fuel : Nat} {r : Except SolveError (Answer W T)}
    (h : Run own config plans m) (hcall : call.isTransient r = true)
    (hrun : (call.run fuel).exec m = some (r, m')) :
    (∀ v, (m'.solver.variableAt? v).isSome = (m.solver.variableAt? v).isSome) ∧
    (∀ c, (m'.solver.constraintAt? c).map Constraint.declared =
      (m.solver.constraintAt? c).map Constraint.declared) ∧
    ∀ v x, m'.solver.variableAt? v = some x → ∀ c, c ∈ x.incident ∨ x.determinedBy = some c →
      (m.solver.constraintAt? c).isSome := by
  have hstands := Call.stands_of_isTransient hcall hrun
  have hadmissible : call.Admissible own plans m.solver := by
    cases call with
    | removeConstraint c => cases hcall
    | executePlan p => cases hcall
    | _ => trivial
  have hwf := (h.call fuel call hadmissible hrun).sound.1.toWellFormed
  refine ⟨hstands.live, hstands.declared, fun v x hx c hc => ?_⟩
  -- the graph is sound after the call, so the constraint exists then
  have hlive : ∃ node, m'.solver.constraintAt? c = some node := by
    rcases hc with hc | hc
    · obtain ⟨node, hnode, _⟩ := (hwf.incident hx c).1 hc
      exact ⟨node, hnode⟩
    · obtain ⟨node, hnode, _⟩ := (hwf.determined hx c).1 hc
      exact ⟨node, hnode⟩
  obtain ⟨node, hnode⟩ := hlive
  have hdeclared := hstands.declared c
  rw [hnode, Option.map_some] at hdeclared
  obtain ⟨n, hn, _⟩ := Option.map_eq_some_iff.1 hdeclared.symm
  rw [hn]
  rfl

/-- A copy of a variable is made while the variable is a copy of the other. This closes a cycle and
fails; the older constraint is disabled, and of the new one there is no trace. -/
theorem leaves_no_trace_two_copies : ∃ m m' : Machine Unit Nat,
    Call.runAll 9 [.newVariables [0, 0],
      .constrain (.ofMethod .weak none (.compute ⟨0, 0⟩ [⟨1, 0⟩] .first) ⟨by decide, by decide⟩)]
      ⟨.empty {}, (), []⟩ = some m ∧
    ((Call.constrain (.ofMethod .weak none (.compute ⟨1, 0⟩ [⟨0, 0⟩] .first)
      ⟨by decide, by decide⟩)).run 9).exec m = some (.error (.cycleDetected ⟨0, 0⟩), m') ∧
    m.solver.Enabled ⟨0, 0⟩ ∧ ¬ m'.solver.Enabled ⟨0, 0⟩ ∧
    (∀ c, (m'.solver.constraintAt? c).map Constraint.declared =
      (m.solver.constraintAt? c).map Constraint.declared) ∧
    ∀ x, m'.solver.variableAt? ⟨1, 0⟩ = some x → ∀ c, c ∈ x.incident ∨ x.determinedBy = some c →
      (m.solver.constraintAt? c).isSome := by
  have hany : (Call.runAll (W := Unit) (T := Nat) 9 [.newVariables [0, 0],
      .constrain (.ofMethod .weak none (.compute ⟨0, 0⟩ [⟨1, 0⟩] .first) ⟨by decide, by decide⟩)]
      ⟨.empty {}, (), []⟩).any (fun m =>
        ((m.solver.constraintAt? ⟨0, 0⟩).any fun n => n.enabled = true) ∧
        (((Call.constrain (.ofMethod .weak none (.compute ⟨1, 0⟩ [⟨0, 0⟩] .first)
          ⟨by decide, by decide⟩)).run 9).exec m).any fun p =>
            Call.hasFailed (.cycleDetected ⟨0, 0⟩) p.1 ∧
              (p.2.solver.constraintAt? ⟨0, 0⟩).any fun n => n.enabled = false) = true := by
    decide +kernel
  simp only [Option.any_eq_true, decide_eq_true_eq] at hany
  obtain ⟨m, hm, ⟨n, hn, hen⟩, ⟨r, m'⟩, hrun, hr, n', hn', hoff⟩ := hany
  obtain rfl := Call.eq_error_of_hasFailed hr
  have hstart : Run False {} [] (⟨.empty {}, (), []⟩ : Machine Unit Nat) := .start ()
  obtain ⟨plans, h⟩ := runAll hstart (by decide) hm
  obtain ⟨_, hdeclared, hrecords⟩ := leaves_no_trace h rfl hrun
  refine ⟨m, m', hm, hrun, ⟨n, hn, hen⟩, ?_, hdeclared, hrecords ⟨1, 0⟩⟩
  rintro ⟨n'', hn'', hen'⟩
  obtain rfl := Option.some.inj (hn'.symm.trans hn'')
  rw [hoff] at hen'
  cases hen'

end Run

end DeltaBlue
