import DeltaBlue.Proofs.Runs

/-!
# Mentioned variables

The variables that constraints mention exist, also those of constraints that are not enabled. A
variable goes in one of two ways. It is removed by itself, which is refused as long as a constraint
mentions it; or it is the sink of an observer and goes with the observer, and then nobody asks whether
another constraint mentions it, as a copy of the observer does. So what a call does to a solver that
is reached by calls is told by one look at the solver before: mentioned variables stay in place
exactly if the call does not remove an observer whose sink another constraint mentions.
-/

namespace DeltaBlue

namespace SolveM

variable {W T : Type} {m : Machine W T} {c : ConstraintId} {node : Constraint W T} {sink : VarId}

/-- The sink goes with its constraint, and no other constraint is changed in what it declares. -/
theorem ensures_removeConstraint_sink (fuel : Nat) (hnode : m.solver.constraintAt? c = some node)
    (hsink : node.sink = some sink) :
    Ensures (removeConstraint fuel c) m fun _ m' => m'.solver.variableAt? sink = none ∧
      ∀ k, k ≠ c → (m'.solver.constraintAt? k).map Constraint.declared =
        (m.solver.constraintAt? k).map Constraint.declared := by
  refine (ensures_removeConstraint_forgets fuel c).mono ?_
  intro r m' hforgets
  refine ⟨?_, fun k hk => ?_⟩
  · -- a variable that is still there is not the sink of the constraint
    by_contra hlive
    rw [← ne_eq, Option.ne_none_iff_isSome] at hlive
    refine ((hforgets.live sink).1 hlive).2 ?_
    rw [hnode, Option.bind_some, hsink]
  · rw [hforgets.declared, if_neg hk]

end SolveM

namespace Run

variable {W T : Type} {config : Config} {plans : List (Plan × Nat)} {m m' : Machine W T}
  {call : Call W T} {fuel : Nat} {r : Except SolveError (Answer W T)}

/-- After any call on a solver that is reached by calls, every variable that a constraint mentions
exists, exactly if the call has not removed an observer whose sink another constraint mentions. -/
theorem mentioned_live_iff (h : Run False config plans m)
    (hrun : (call.run fuel).exec m = some (r, m')) :
    (∀ c node, m'.solver.constraintAt? c = some node →
      ∀ v ∈ node.definition.vars, (m'.solver.variableAt? v).isSome) ↔
    ∀ c, call = .removeConstraint c → m.solver.OwnsSink c := by
  constructor
  · rintro hlive c rfl node sink hnode hsink k n hk hn hmem
    obtain ⟨hgone, hdeclared⟩ : m'.solver.variableAt? sink = none ∧ ∀ k, k ≠ c →
        (m'.solver.constraintAt? k).map Constraint.declared =
          (m.solver.constraintAt? k).map Constraint.declared := by
      have hremoved := SolveM.ensures_removeConstraint_sink fuel hnode hsink
      exact (Call.ensures_answer (f := fun _ => .done) (Q := fun m' => _) hremoved) r m' hrun
    -- the other constraint still mentions the sink
    have hk := hdeclared k hk
    rw [hn, Option.map_some, Option.map_eq_some_iff] at hk
    obtain ⟨n', hn', he⟩ := hk
    have hsome := hlive k n' hn' sink ((Prod.mk.inj he).1 ▸ hmem)
    rw [hgone] at hsome
    cases hsome
  · -- the call is one that a run may make, so the graph is sound after it
    intro hsink c node hnode
    have hadmissible : call.Admissible False plans m.solver := by
      cases call with
      | removeConstraint c => exact hsink c rfl
      | executePlan p => exact False.elim
      | _ => trivial
    exact (h.call fuel call hadmissible hrun).sound.1.mentioned hnode

/-- An observer of the first of two variables, and a copy of it that has the second as its output. -/
def observedTwice : List (Call Unit Nat) :=
  [.newVariables [5, 5], .observe [⟨0, 0⟩] fun _ w => w,
    .substitute ⟨0, 0⟩ fun v => if v = ⟨2, 0⟩ then ⟨1, 0⟩ else v]

/-- The observer can be removed: its copy does not mention its sink. -/
theorem mentioned_live_observedTwice : ∃ m m' : Machine Unit Nat,
    Call.runAll 9 observedTwice ⟨.empty {}, (), []⟩ = some m ∧
    SolveM.exec ((Call.removeConstraint ⟨0, 0⟩).run 9) m = some (.ok .done, m') ∧
    m'.solver.variableAt? ⟨2, 0⟩ = none ∧
    ∀ c node, m'.solver.constraintAt? c = some node →
      ∀ v ∈ node.definition.vars, (m'.solver.variableAt? v).isSome := by
  have hany : (Call.runAll 9 observedTwice ⟨.empty {}, (), []⟩).any (fun m =>
      (m.solver.constraintAt? ⟨0, 0⟩).any (fun node => node.sink = some ⟨2, 0⟩) ∧
      (m.solver.constraints.toList.all fun p =>
        p.1 = ⟨0, 0⟩ ∨ ⟨2, 0⟩ ∉ p.2.definition.vars) ∧
      (SolveM.exec ((Call.removeConstraint ⟨0, 0⟩).run 9) m).any fun p =>
        Call.isDone p.1 ∧ (p.2.solver.variableAt? ⟨2, 0⟩).isNone) = true := by
    decide +kernel
  simp only [Option.any_eq_true, decide_eq_true_eq] at hany
  obtain ⟨m, hm, ⟨node, hnode, hsink⟩, hall, ⟨r, m'⟩, hexec, hr, hgone⟩ := hany
  obtain rfl := Call.eq_done_of_isDone hr
  obtain ⟨plans, h⟩ := runAll (.start ()) (by decide) hm
  -- no other constraint mentions the sink, by a look at all of them
  have howns : m.solver.OwnsSink ⟨0, 0⟩ := by
    intro n sink hn hs k n' hk hn' hmem
    obtain rfl := Option.some.inj (hnode.symm.trans hn)
    obtain rfl := Option.some.inj (hsink.symm.trans hs)
    have hk' := of_decide_eq_true (List.all_eq_true.1 hall _ (Arena.mem_toList.2 hn'))
    exact hk'.resolve_left hk hmem
  have hlive := (mentioned_live_iff h hexec).2 fun c hc => Call.removeConstraint.inj hc ▸ howns
  exact ⟨m, m', hm, hexec, Option.isNone_iff_eq_none.1 hgone, hlive⟩

/-- An observer of a variable, and a copy of it that shares its sink. -/
def sharedSink : List (Call Unit Nat) :=
  [.newVariable 5, .observe [⟨0, 0⟩] fun _ w => w, .substitute ⟨0, 0⟩ id]

/-- The observer can be removed, and then its copy mentions a variable that is gone. -/
theorem sharedSink_gone : ∃ (m m' : Machine Unit Nat) (node : Constraint Unit Nat),
    Call.runAll 9 sharedSink ⟨.empty {}, (), []⟩ = some m ∧ (∃ plans, Run True {} plans m) ∧
    SolveM.exec ((Call.removeConstraint ⟨0, 0⟩).run 9) m = some (.ok .done, m') ∧
    m'.solver.constraintAt? ⟨1, 0⟩ = some node ∧ ⟨1, 0⟩ ∈ node.definition.vars ∧
    m'.solver.variableAt? ⟨1, 0⟩ = none := by
  have hany : (Call.runAll 9 sharedSink ⟨.empty {}, (), []⟩).any (fun m =>
      (SolveM.exec ((Call.removeConstraint ⟨0, 0⟩).run 9) m).any fun p =>
        Call.isDone p.1 ∧ (p.2.solver.constraintAt? ⟨1, 0⟩).any fun node =>
          ⟨1, 0⟩ ∈ node.definition.vars ∧ (p.2.solver.variableAt? ⟨1, 0⟩).isNone) = true := by
    decide +kernel
  simp only [Option.any_eq_true, decide_eq_true_eq] at hany
  obtain ⟨m, hm, ⟨r, m'⟩, hexec, hr, node, hnode, hmem, hgone⟩ := hany
  obtain rfl := Call.eq_done_of_isDone hr
  exact ⟨m, m', node, hm, runAll (.start ()) (by decide) hm, hexec, hnode, hmem,
    Option.isNone_iff_eq_none.1 hgone⟩

end Run

end DeltaBlue
