import DeltaBlue.Proofs.Halting
import DeltaBlue.Proofs.Tidying

/-!
# The strength hierarchy is optimal on forests

As long as the enabled constraints form a forest, the solver satisfies as many constraints as
possible: for every strength above the weakest, the constraints of at least this strength that have a
method in force are as many as there can be of those that are given distinct outputs, each one of its
own (`RunWith.hierarchy_optimal`).

This is counted in a tidy graph. A variable that is held at a strength is determined by a constraint
that insists on this strength and all of whose outputs are held so. In a given assignment, replace
every constraint whose variable is held so by the one that determines the variable. The others have a
method in force, because they are not blocked; and none of them takes the place of another, because
the outputs of a constraint that was put in are all held. So no assignment has more members than
there are methods in force.
-/

namespace DeltaBlue

namespace Solver

variable {W T : Type}

/-- The constraints with a method in force that insist on the given strength at least. -/
def Enforced (s : Solver W T) (a : Strength) : Set ConstraintId :=
  {c | ∃ node, s.constraintAt? c = some node ∧ node.isEnforcing = true ∧
    a ≤ node.definition.strength}

/-- The constraints are enabled, insist on the given strength at least, and can be given distinct
variables, each an output of its own. -/
def Assignable (s : Solver W T) (a : Strength) (C : Finset ConstraintId) : Prop :=
  ∃ f : ConstraintId → VarId, Set.InjOn f C ∧ ∀ c ∈ C, ∃ node, s.constraintAt? c = some node ∧
    node.enabled = true ∧ a ≤ node.definition.strength ∧
    ∃ method ∈ node.definition.methods, method.output = f c

variable {s : Solver W T} {cells : Prop} {a : Strength} {c : ConstraintId} {node : Constraint W T}
  {v : VarId}

/-- There are finitely many constraints, so finitely many have a method in force. -/
theorem finite_enforced (s : Solver W T) (a : Strength) : (s.Enforced a).Finite := by
  refine s.finite_constraints.subset ?_
  rintro c ⟨node, hnode, _⟩
  exact Option.isSome_iff_exists.2 ⟨node, hnode⟩

/-- What is held at a strength is determined by a constraint that insists on it and all of whose outputs
are held so. -/
theorem Rest.determiner_of_held (hrest : s.Rest cells) (h : s.WellFormed) (ha : a ≠ .weakest)
    (hv : a ≤ s.walkAt v) : ∃ c, s.Determines c v ∧ c ∈ s.Enforced a ∧
      ∀ node, s.constraintAt? c = some node →
        ∀ method ∈ node.definition.methods, a ≤ s.walkAt method.output := by
  -- what nothing determines is held at the weakest strength only
  by_cases hfree : ∀ c, ¬ s.Determines c v
  · rw [hrest.walkAt_of_free h hfree] at hv
    exact absurd (Strength.le_antisymm hv (Nat.zero_le _)) ha
  · obtain ⟨c, hc⟩ := not_forall_not.1 hfree
    obtain ⟨node, hnode, hout⟩ := id hc
    have hwalk := hv
    rw [hrest.walkAt_of_output hnode hout] at hwalk
    obtain ⟨hstrength, houtputs⟩ := Definition.le_walkFrom.1 hwalk
    obtain ⟨i, _, hi, _, _⟩ := Constraint.output?_eq_some_iff.1 hout
    refine ⟨c, hc, ⟨node, hnode, Option.isSome_iff_exists.2 ⟨i, hi⟩, hstrength⟩, ?_⟩
    intro n hn method hmethod
    obtain rfl := Option.some.inj (hnode.symm.trans hn)
    by_cases hne : method.output = v
    · rw [hne]
      exact hv
    · exact houtputs method hmethod hne

/-- The constraints with a method in force can be given the outputs of these methods. -/
theorem assignable_enforced (h : s.WellFormed) :
    s.Assignable a (s.finite_enforced a).toFinset := by
  have hout : ∀ c, ∃ v, c ∈ s.Enforced a → s.Determines c v := by
    intro c
    by_cases hc : c ∈ s.Enforced a
    · obtain ⟨node, hnode, henf, _⟩ := hc
      obtain ⟨o, hout⟩ := h.exists_output hnode henf
      exact ⟨o, fun _ => ⟨node, hnode, hout⟩⟩
    · exact ⟨⟨0, 0⟩, fun hmem => absurd hmem hc⟩
  choose f hf using hout
  refine ⟨f, fun c hc k hk he => ?_, fun c hc => ?_⟩
  · have hc := hf c ((s.finite_enforced a).mem_toFinset.1 hc)
    have hk := hf k ((s.finite_enforced a).mem_toFinset.1 hk)
    exact h.determines_unique hc (he ▸ hk)
  · have hmem := (s.finite_enforced a).mem_toFinset.1 hc
    obtain ⟨node, hnode, hout⟩ := hf c hmem
    obtain ⟨n, hn, _, hle⟩ := hmem
    obtain rfl := Option.some.inj (hnode.symm.trans hn)
    obtain ⟨i, method, hi, hmethod, he⟩ := Constraint.output?_eq_some_iff.1 hout
    exact ⟨node, hnode, (h.enforcing hnode hi).1, hle, method,
      Definition.mem_of_method? hmethod, he⟩

/-- No assignment in a tidy graph has more members than there are methods in force. -/
theorem Tidy.card_le (ht : s.Tidy []) (hrest : s.Rest cells) (h : s.WellFormed)
    (ha : a ≠ .weakest) {C : Finset ConstraintId} (hC : s.Assignable a C) :
    C.card ≤ (s.Enforced a).ncard := by
  obtain ⟨f, hinj, hown⟩ := hC
  -- the constraint that takes the place of `c`
  have hplace : ∀ c, ∃ k, c ∈ C → k ∈ s.Enforced a ∧
      (a ≤ s.walkAt (f c) ∧ s.Determines k (f c) ∧ (∀ node, s.constraintAt? k = some node →
        ∀ method ∈ node.definition.methods, a ≤ s.walkAt method.output) ∨
      ¬ a ≤ s.walkAt (f c) ∧ k = c) := by
    intro c
    by_cases hheld : a ≤ s.walkAt (f c)
    · obtain ⟨k, hk, hmem, houtputs⟩ := hrest.determiner_of_held h ha hheld
      exact ⟨k, fun _ => ⟨hmem, .inl ⟨hheld, hk, houtputs⟩⟩⟩
    · refine ⟨c, fun hc => ⟨?_, .inr ⟨hheld, rfl⟩⟩⟩
      obtain ⟨node, hnode, hen, hle, method, hmethod, he⟩ := hown c hc
      refine ⟨node, hnode, ?_, hle⟩
      -- an idle constraint is blocked, and then its variable would be held
      by_contra hidle
      rw [Constraint.isEnforcing, Option.not_isSome_iff_eq_none] at hidle
      obtain ⟨n, hn, hblocked⟩ :=
        (ht.blocked c ⟨node, hnode, hen, hidle⟩).resolve_left List.not_mem_nil
      obtain rfl := Option.some.inj (hnode.symm.trans hn)
      exact hheld (he ▸ Nat.le_trans hle (hblocked method hmethod))
  choose g hg using hplace
  -- the outputs of a constraint that is put in are held, and those of one that stays are not
  have hmixed : ∀ c ∈ C, ∀ k ∈ C, a ≤ s.walkAt (f c) → g c = g k → a ≤ s.walkAt (f k) := by
    intro c hc k hk hheld he
    obtain ⟨_, ⟨_, _, houtputs⟩ | ⟨hnot, _⟩⟩ := hg c hc
    · by_contra hfree
      obtain ⟨_, ⟨hheld', _⟩ | ⟨_, hstay⟩⟩ := hg k hk
      · exact hfree hheld'
      · obtain ⟨node, hnode, _, _, method, hmethod, hout⟩ := hown k hk
        refine hfree (hout ▸ houtputs node ?_ method hmethod)
        rw [he, hstay, hnode]
    · exact absurd hheld hnot
  -- two members with the same replacement have the same variable, or they are the replacement
  -- itself
  have hginj : Set.InjOn g C := by
    intro c hc k hk he
    obtain ⟨_, ⟨hheld, hdet, _⟩ | ⟨hfree, hstay⟩⟩ := hg c hc
    · obtain ⟨_, ⟨_, hdet', _⟩ | ⟨hfree', _⟩⟩ := hg k hk
      · exact hinj hc hk (hdet.unique (he ▸ hdet'))
      · exact absurd (hmixed c hc k hk hheld he) hfree'
    · obtain ⟨_, ⟨hheld', _⟩ | ⟨_, hstay'⟩⟩ := hg k hk
      · exact absurd (hmixed k hk c hc hheld' he.symm) hfree
      · rw [← hstay, he, hstay']
  rw [← Set.ncard_coe_finset]
  exact Set.ncard_le_ncard_of_injOn g (fun c hc => (hg c hc).1) hginj (s.finite_enforced a)

/-- In a tidy graph as many constraints have a method in force as can be given distinct outputs. -/
theorem Tidy.isGreatest_enforced (ht : s.Tidy []) (hrest : s.Rest cells) (h : s.WellFormed)
    (ha : a ≠ .weakest) :
    IsGreatest {n | ∃ C, s.Assignable a C ∧ C.card = n} (s.Enforced a).ncard := by
  refine ⟨⟨_, assignable_enforced h, (Set.ncard_eq_toFinset_card _ _).symm⟩, ?_⟩
  rintro _ ⟨C, hC, rfl⟩
  exact ht.card_le hrest h ha hC

end Solver

namespace Call

open SolveM (Ensures Moves)

variable {W T : Type} {m : Machine W T} {cells : Prop} {fuel : Nat} {c : ConstraintId}

/-- Whenever a constraint is enabled in the course of the call, the enabled constraints form a forest,
together with that constraint. -/
def OnForest (fuel : Nat) (call : Call W T) (m : Machine W T)
    (_r : Except SolveError (Answer W T)) (_m' : Machine W T) : Prop :=
  call.EnablesWhere Solver.ForestWith fuel m

/-- Whether a call is seen to be on a forest: it enables nothing, or what it enables makes a forest by
the order of the slots. -/
def isOnForest (call : Call W T) (m _m' : Machine W T) : Bool :=
  match call with
  | newVariables _ | insert _ | disable _ => true
  | enable c => m.solver.isForestWith c
  | _ => false

/-- If the test succeeds, the call is on a forest. -/
theorem onForest_of_isOnForest {call : Call W T} {r : Except SolveError (Answer W T)}
    {m' : Machine W T} (h : call.isOnForest m m' = true) : call.OnForest fuel m r m' := by
  cases call with
  | newVariables _ | insert _ | disable _ => trivial
  | enable c => exact Solver.forestWith_of_isForestWith h
  | _ => cases h

/-- A call on a forest leaves a tidy graph tidy, and the number of cycles found at zero. -/
theorem ensures_tidy {call : Call W T} (h : m.solver.Sound cells)
    (hcareful : call.Careful cells m.solver) (ht : m.solver.Tidy [])
    (hzero : m.solver.metrics.cycles = 0) :
    Ensures (call.run fuel) m fun r m' => call.OnForest fuel m r m' →
      m'.solver.passes < 2 ^ 64 → m'.solver.Tidy [] ∧ m'.solver.metrics.cycles = 0 := by
  -- resetting the counters is no move, but it leaves the graph and the cycles at zero
  by_cases hreset : call = resetMetrics
  · subst hreset
    unfold run SolveM.resetMetrics
    rw [SolveM.ensures_bind, SolveM.ensures_count]
    exact (SolveM.ensures_pure _).2 fun _ _ => ⟨ht.congr (fun _ => rfl) fun _ => rfl, rfl⟩
  · intro r m' hrun hforest hlt
    have hmoves : Moves cells Solver.ForestWith fuel m m' :=
      ensures_moves h hcareful hreset (fun _ hP => hP) hforest r m' hrun
    obtain ⟨ht', hcycles⟩ := hmoves.tidy h ht hlt
    exact ⟨ht', hcycles.trans hzero⟩

end Call

namespace RunWith

variable {W T : Type} {own : Prop} {config : Config} {plans : List (Plan × Nat)} {m : Machine W T}

/-- After every call of a run on forests the graph is tidy, and no cycle was found. -/
theorem tidy (h : RunWith Call.OnForest own config plans m) (hlt : m.solver.passes < 2 ^ 64) :
    m.solver.Tidy [] ∧ m.solver.metrics.cycles = 0 := by
  induction h with
  | start w => exact ⟨Solver.tidy_empty config, rfl⟩
  | outside w _ ih => exact ih hlt
  | @call plans m m' r fuel call h hcall hrun hok ih =>
    obtain ⟨hsound, htracked⟩ := h.run.sound
    have hcareful := Run.careful htracked hcall
    obtain ⟨_, hquiet⟩ := Call.ensures_run hsound hcareful r m' hrun
    obtain ⟨ht, hzero⟩ := ih (Nat.lt_of_le_of_lt hquiet.passes hlt)
    exact Call.ensures_tidy hsound hcareful ht hzero r m' hrun hok hlt

/-- In a run on forests the solver satisfies as many constraints as possible: after every call, for
every strength above the weakest, the constraints of at least this strength with a method in force are
as many as the largest set of enabled ones that can be given distinct outputs, each one of its own. No
cycle is found. Disabling a constraint that exists returns without an error, and enabling it returns
and fails only because it is required and finds no method itself. -/
theorem hierarchy_optimal (h : RunWith Call.OnForest own config plans m)
    (hlt : m.solver.passes < 2 ^ 64) :
    (∀ a, a ≠ .weakest → IsGreatest {n | ∃ C, m.solver.Assignable a C ∧ C.card = n}
      (m.solver.Enforced a).ncard) ∧
    m.solver.metrics.cycles = 0 ∧
    ∀ c, (m.solver.constraintAt? c).isSome →
      (Call.disable c).EndsIn m (fun r m' => m'.solver.passes < 2 ^ 64 → r = .ok .done) ∧
      (m.solver.ForestWith c → (Call.enable c).EndsIn m fun r m' =>
        m'.solver.passes < 2 ^ 64 → ∀ e, r = .error e → e = .unsatisfiableRequired c) := by
  have hsound := h.run.sound.1
  obtain ⟨ht, hcycles⟩ := h.tidy hlt
  refine ⟨fun a ha => ht.isGreatest_enforced (hsound.rest hlt) hsound.toWellFormed ha, hcycles, ?_⟩
  refine fun c hlive => ⟨?_, fun hforest => ?_⟩
  · refine Call.endsIn_of_done (fun _ => rfl)
      (fun _ => SolveM.disable_stopsOnForest hsound ht.forest) fun fuel => ?_
    refine (SolveM.ensures_disable_tidy hsound ht).mono fun r m' hdisabled hlt' => ?_
    rw [(hdisabled hlt').2.2 hlive]
    rfl
  · refine Call.endsIn_of_done (fun _ => rfl)
      (fun _ => SolveM.enable_stopsOnForest hsound hforest) fun fuel => ?_
    refine (SolveM.ensures_enable_tidy hsound ht hforest).mono fun r m' henabled hlt' e he => ?_
    cases r with
    | ok _ => cases he
    | error e' => exact (henabled hlt').2.2 hlive e (congrArg Except.error (Except.error.inj he))

/-- A required and a medium relation that join three variables, two variables held, and the third held
more strongly for a while. -/
def heldChain : List (Call Unit Nat) :=
  [.newVariables [0, 0, 0],
    .insert (.relation .required ⟨0, 0⟩ [⟨1, 0⟩] [] .first), .enable ⟨0, 0⟩,
    .insert (.relation .medium ⟨1, 0⟩ [⟨2, 0⟩] [] .first), .enable ⟨1, 0⟩,
    .insert (.stay .weak ⟨0, 0⟩), .enable ⟨2, 0⟩,
    .insert (.stay .medium ⟨1, 0⟩), .enable ⟨3, 0⟩,
    .insert (.edit .strong none ⟨2, 0⟩ 7), .enable ⟨4, 0⟩, .disable ⟨4, 0⟩]

/-- In the end as many constraints of medium strength are satisfied as possible, though some were
displaced in between; the required relation can be disabled, and the strongest constraint enabled
again. -/
theorem hierarchy_optimal_chain : ∃ m : Machine Unit Nat,
    Call.runWhile Call.isOnForest 9 heldChain ⟨.empty {}, (), []⟩ = some m ∧
    m.solver.passes < 2 ^ 64 ∧ (m.solver.constraintAt? ⟨0, 0⟩).isSome ∧
    (m.solver.constraintAt? ⟨4, 0⟩).isSome ∧ m.solver.ForestWith ⟨4, 0⟩ ∧
    IsGreatest {n | ∃ C, m.solver.Assignable .medium C ∧ C.card = n}
      (m.solver.Enforced .medium).ncard ∧
    (Call.disable ⟨0, 0⟩).EndsIn m (fun r m' => m'.solver.passes < 2 ^ 64 → r = .ok .done) ∧
    (Call.enable ⟨4, 0⟩).EndsIn m fun r m' =>
      m'.solver.passes < 2 ^ 64 → ∀ e, r = .error e → e = .unsatisfiableRequired ⟨4, 0⟩ := by
  have hany : (Call.runWhile Call.isOnForest 9 heldChain ⟨.empty {}, (), []⟩).any (fun m =>
      m.solver.passes < 2 ^ 64 ∧ (m.solver.constraintAt? ⟨0, 0⟩).isSome ∧
      (m.solver.constraintAt? ⟨4, 0⟩).isSome ∧ m.solver.isForestWith ⟨4, 0⟩) = true := by
    decide +kernel
  simp only [Option.any_eq_true, decide_eq_true_eq] at hany
  obtain ⟨m, hm, hlt, hlive₀, hlive, hforest⟩ := hany
  have hforest := Solver.forestWith_of_isForestWith hforest
  have hstart : RunWith Call.OnForest False {} [] (⟨.empty {}, (), []⟩ : Machine Unit Nat) :=
    .start ()
  obtain ⟨plans, h⟩ := hstart.runWhile Call.onForest_of_isOnForest (by decide) hm
  obtain ⟨hgreatest, _, hcalls⟩ := hierarchy_optimal h hlt
  exact ⟨m, hm, hlt, hlive₀, hlive, hforest, hgreatest .medium (by decide),
    (hcalls ⟨0, 0⟩ hlive₀).1, (hcalls ⟨4, 0⟩ hlive).2 hforest⟩

end RunWith

end DeltaBlue
