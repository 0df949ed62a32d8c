import DeltaBlue.Proofs.Switching

/-!
# Groups are enabled as a whole

The members of a group are enabled in order, and the first failure undoes what was done before: the
members that the call has enabled so far are disabled again, and so is the one that failed, if it is
still enabled. After that nothing is enabled that was not enabled before, since enabling a member
switches nothing else on.

There is one failure that undoes nothing. A member that does not exist is noticed when its turn comes,
and the call fails at once. Then all members before it are enabled.
-/

namespace DeltaBlue

namespace Solver

variable {W T : Type} {s s' : Solver W T}

/-- Every constraint that was not enabled exists afterwards and is not enabled. -/
def LeavesOff (s s' : Solver W T) : Prop :=
  ∀ c node, s.constraintAt? c = some node → node.enabled = false →
    ∃ node', s'.constraintAt? c = some node' ∧ node'.enabled = false

/-- Whether a constraint exists is a matter of what is declared. -/
theorem Redeclares.isSome_eq (h : s.Redeclares s') (c : ConstraintId) :
    (s'.constraintAt? c).isSome = (s.constraintAt? c).isSome := by
  rw [← Option.isSome_map (f := Constraint.declared), h c, Option.isSome_map]

/-- A constraint that exists is off exactly when its record says so. -/
theorem not_enabled_iff {c : ConstraintId} {node : Constraint W T}
    (hnode : s.constraintAt? c = some node) : ¬ s.Enabled c ↔ node.enabled = false := by
  constructor
  · intro h
    exact Bool.eq_false_iff.2 fun hen => h ⟨node, hnode, hen⟩
  · rintro h ⟨n, hn, hen⟩
    obtain rfl := Option.some.inj (hnode.symm.trans hn)
    rw [h] at hen
    cases hen

/-- Constraints that exist as before are left off if nothing is enabled that was not. -/
theorem Redeclares.leavesOff (h : s.Redeclares s') (hen : ∀ k, s'.Enabled k → s.Enabled k) :
    s.LeavesOff s' := by
  intro c node hnode hoff
  have hlive : (s'.constraintAt? c).isSome := by rw [h.isSome_eq, hnode]; rfl
  obtain ⟨node', hnode'⟩ := Option.isSome_iff_exists.1 hlive
  refine ⟨node', hnode', (not_enabled_iff hnode').1 fun hk => ?_⟩
  exact (not_enabled_iff hnode).2 hoff (hen c hk)

end Solver

namespace SolveM

open Solver (Redeclares)

variable {W T : Type} {m : Machine W T}

/-- The members that are disabled after a failure are off in the end, and nothing is on that was
off. -/
theorem ensures_undoMembers_off (fuel : Nat) (cs : List ConstraintId) :
    Ensures (undoMembers fuel cs) m fun _ m' =>
      ∀ k, m'.solver.Enabled k → m.solver.Enabled k ∧ k ∉ cs := by
  -- along the members: each one is off once it was disabled, and disabling the rest turns nothing
  -- on
  induction cs generalizing m with
  | nil => exact (ensures_pure _).2 fun k hk => ⟨hk, List.not_mem_nil⟩
  | cons c cs ih =>
    unfold undoMembers
    rw [ensures_bind, ensures_attempt]
    refine ((ensures_disable fuel c).and (ensures_disable_complies fuel c)).mono ?_
    rintro r m₁ ⟨⟨_, hoff⟩, hcomplies⟩
    have hrest : ∀ journal, Ensures (undoMembers fuel cs) { m₁ with journal := journal } fun _ m' =>
        ∀ k, m'.solver.Enabled k → m.solver.Enabled k ∧ k ∉ c :: cs := by
      refine fun journal => ih.mono fun _ m' h k hk => ?_
      obtain ⟨hk₁, hcs⟩ := h k hk
      have hne : k ≠ c := fun he => hoff (he ▸ hk₁)
      have hm := (hcomplies.switches.enabled k hk₁).resolve_right List.not_mem_nil
      exact ⟨hm, fun hmem => (List.mem_cons.1 hmem).elim hne hcs⟩
    cases r with
    | ok _ => exact hrest _
    | error e => exact (ensures_bind ..).2 ((ensures_note _).2 (hrest _))

/-- The members to undo are the ones enabled so far and the one that failed, if it is still on. If
nothing else has been switched on since, all that was off is off again. -/
theorem ensures_undoMembers_failed (fuel : Nat) {s : Solver W T} {c : ConstraintId}
    {done : List ConstraintId} (hon : ∀ k, m.solver.Enabled k → s.Enabled k ∨ k ∈ c :: done) :
    Ensures (undoMembers fuel
      (if (m.solver.constraintAt? c).any (·.enabled) then c :: done else done)) m fun _ m' =>
        ∀ k, m'.solver.Enabled k → s.Enabled k := by
  refine (ensures_undoMembers_off fuel _).mono fun r m' hoff k hk => ?_
  obtain ⟨hk₁, hnot⟩ := hoff k hk
  refine (hon k hk₁).resolve_right fun hmem => hnot ?_
  split
  · exact hmem
  · next hstays =>
    rcases List.mem_cons.1 hmem with rfl | hmem
    · obtain ⟨n, hn, hen⟩ := hk₁
      exact absurd ((Option.any_eq_true _ _).2 ⟨n, hn, hen⟩) hstays
    · exact hmem

/-- What a failure to enable the members of `cs` comes to, with `s` the solver before any of them was
enabled and `s₁` the one before those of `cs` were: either nothing is on that was off, or a member does
not exist and all before it are enabled. -/
def Undone (s s₁ s' : Solver W T) (cs : List ConstraintId) (e : SolveError) : Prop :=
  (∀ k, s'.Enabled k → s.Enabled k) ∨
    ∃ before k after, cs = before ++ k :: after ∧ s.constraintAt? k = none ∧
      e = .unknownConstraint k ∧ ∀ c, s'.Enabled c ↔ s₁.Enabled c ∨ c ∈ before

/-- A member that is enabled now, or was before, belongs to those before the one that does not
exist. -/
theorem Undone.cons {s s₁ s₂ s' : Solver W T} {c : ConstraintId} {cs : List ConstraintId}
    {e : SolveError} (h : Undone s s₂ s' cs e) (hen : ∀ k, s₂.Enabled k ↔ s₁.Enabled k ∨ k = c) :
    Undone s s₁ s' (c :: cs) e := by
  refine h.imp_right ?_
  rintro ⟨before, k, after, rfl, hnone, rfl, hiff⟩
  refine ⟨c :: before, k, after, rfl, hnone, rfl, fun j => ?_⟩
  rw [hiff, hen, List.mem_cons, or_assoc]

/-- Members are enabled one after the other. `done` are those that were off in the beginning and are
on, and everything that is on was on in the beginning or is one of them. -/
theorem ensures_enableMembers_undone (fuel : Nat) {s : Solver W T} {cs done : List ConstraintId}
    (hdeclared : s.Redeclares m.solver) (hon : ∀ k, m.solver.Enabled k → s.Enabled k ∨ k ∈ done) :
    Ensures (enableMembers fuel cs done) m fun r m' =>
      ∀ e, r = .error e → Undone s m.solver m'.solver cs e := by
  -- along the members; `hon` is what carries over from one to the next
  induction cs generalizing m done with
  | nil => exact (ensures_pure _).2 fun e he => by cases he
  | cons c cs ih =>
    refine .enableMembers_cons (fun hnone => ?_) (fun hen => ?_) fun _ _ => ?_
    · -- the member does not exist, and nothing is undone
      rintro e he
      obtain rfl := Except.error.inj he
      have hgone : s.constraintAt? c = none := by
        rw [← Option.not_isSome_iff_eq_none, ← hdeclared.isSome_eq, hnone]
        exact Bool.false_ne_true
      exact .inr ⟨[], c, cs, rfl, hgone, rfl, fun k => by simp⟩
    · -- the member is enabled already and is passed over
      refine (ih hdeclared hon).mono fun r m' h e he => (h e he).cons fun k => ?_
      exact ⟨.inl, fun hk => hk.elim id fun hkc => hkc ▸ hen⟩
    · refine (((ensures_enable_complies fuel c).and (enable_candid fuel c m)).and
        (enable_redeclares fuel c m)).mono ?_
      rintro r m₁ ⟨⟨⟨h₁, _⟩, hfaults⟩, hdeclared₁⟩
      -- enabling a member turns on nothing else
      have hon₁ : ∀ k, m₁.solver.Enabled k → s.Enabled k ∨ k ∈ c :: done := by
        intro k hk
        rcases h₁.switches.enabled k hk with hk | hk
        · exact (hon k hk).imp_right (List.mem_cons_of_mem c)
        · exact .inr (List.mem_singleton.1 hk ▸ List.mem_cons_self)
      refine ⟨fun hr => ?_, fun e _ => ?_⟩
      · have hdeclared₁ := Redeclares.transitive.trans hdeclared hdeclared₁
        refine (ih hdeclared₁ hon₁).mono fun r m' h e he => (h e he).cons fun k => ?_
        constructor
        · exact fun hk => (h₁.switches.enabled k hk).imp_right List.mem_singleton.1
        · rintro (hk | rfl)
          · exact h₁.switches.keeps (Prod.mk.inj (hfaults () hr)).1 hk List.not_mem_nil
          · exact h₁.isOn () hr k (List.mem_singleton_self k)
      · let m₂ : Machine W T := { m₁ with journal := .memberFailed c e :: m₁.journal }
        exact (ensures_undoMembers_failed (m := m₂) fuel hon₁).mono fun r m' hback _ _ => .inl hback

end SolveM

namespace Call

open SolveM (Ensures)

variable {W T : Type} {m m' : Machine W T} {fuel : Nat} {g : Group} {e : SolveError}

/-- A call that enables a group declares nothing and, if it fails, leaves behind what
`SolveM.Undone` says. -/
theorem ensures_enableGroup_undone (fuel : Nat) (g : Group) :
    Ensures ((enableGroup g : Call W T).run fuel) m fun r m' => m.solver.Redeclares m'.solver ∧
      ∀ e, r = .error e → SolveM.Undone m.solver m.solver m'.solver g.constraints e := by
  have hnothing := Solver.Redeclares.transitive (W := W) (T := T)
  have hgroup : Ensures (SolveM.enableGroup fuel g) m fun r m' => m.solver.Redeclares m'.solver ∧
      ∀ e, r = .error e → SolveM.Undone m.solver m.solver m'.solver g.constraints e := by
    unfold SolveM.enableGroup
    rw [SolveM.ensures_bind, SolveM.ensures_note]
    refine (SolveM.enableMembers_obeys SolveM.redeclares_frame fuel g.constraints []
      hnothing _).and ?_
    exact SolveM.ensures_enableMembers_undone fuel (hnothing.refl _) fun k hk => .inl hk
  refine (SolveM.ensures_bind _ _).2 (hgroup.mono fun r m' h => ?_)
  cases r with
  | ok _ => exact (SolveM.ensures_pure _).2 ⟨h.1, fun e he => by cases he⟩
  | error e => exact ⟨h.1, fun e' he => h.2 e' (congrArg _ (Except.error.inj he))⟩

/-- A group of constraints that exist is enabled as a whole: if this fails, whatever was not enabled
before is not enabled afterwards. With other members in the group, this fails for one reason only: a
member does not exist, and the call stops at the first such member with all members before it
enabled. -/
theorem leavesOff_of_enableGroup_error
    (hrun : ((enableGroup g).run fuel).exec m = some (.error e, m')) :
    ((∀ c ∈ g.constraints, (m.solver.constraintAt? c).isSome) → m.solver.LeavesOff m'.solver) ∧
    (m.solver.LeavesOff m'.solver ∨
      ∃ before k after, g.constraints = before ++ k :: after ∧
        (m.solver.constraintAt? k = none ∧ e = .unknownConstraint k) ∧
        (∀ c ∈ before, (m.solver.constraintAt? c).isSome) ∧
        ∀ c, m'.solver.Enabled c ↔ m.solver.Enabled c ∨ c ∈ before) := by
  obtain ⟨hdeclared, hundone⟩ := ensures_enableGroup_undone fuel g _ _ hrun
  have hcases := (hundone e rfl).imp_left hdeclared.leavesOff
  refine ⟨fun hlive => hcases.resolve_right ?_, hcases.imp_right ?_⟩
  · -- the other case needs a member that does not exist
    rintro ⟨before, k, after, hg, hnone, _⟩
    have hk := hlive k (hg ▸ List.mem_append_right before List.mem_cons_self)
    rw [hnone] at hk
    cases hk
  · rintro ⟨before, k, after, hg, hnone, he, hiff⟩
    refine ⟨before, k, after, hg, ⟨hnone, he⟩, fun c hc => ?_, hiff⟩
    obtain ⟨node, hnode, _⟩ := (hiff c).2 (.inr hc)
    rw [← hdeclared.isSome_eq, hnode]
    rfl

/-- Two stored constraints that hold one variable, and one that is to hold, as a required constraint,
the variable that another required constraint holds. -/
def heldTwice : List (Call Unit Nat) :=
  [.newVariables [0, 0], .edit ⟨0, 0⟩ 1 .required, .insert (.stay .weak ⟨1, 0⟩),
    .insert (.edit .strong none ⟨1, 0⟩ 5), .insert (.edit .required none ⟨0, 0⟩ 2)]

/-- A group, with a group inside and a member that is enabled already, cannot be enabled for its last
member, and none of its members is enabled afterwards that was not. -/
theorem leavesOff_of_enableGroup_error_heldTwice : ∃ m m' : Machine Unit Nat,
    Call.runAll 9 heldTwice ⟨.empty {}, (), []⟩ = some m ∧
    ((Call.enableGroup (.constraint ⟨1, 0⟩ (.constraint ⟨0, 0⟩
      (.nested (.constraint ⟨2, 0⟩ .empty) (.constraint ⟨3, 0⟩ .empty))))).run 9).exec m =
        some (.error (.unsatisfiableRequired ⟨3, 0⟩), m') ∧
    (∀ c ∈ [⟨1, 0⟩, ⟨0, 0⟩, ⟨2, 0⟩, ⟨3, 0⟩], (m.solver.constraintAt? c).isSome) ∧
    m.solver.Enabled ⟨0, 0⟩ ∧ m.solver.LeavesOff m'.solver := by
  have hany : (Call.runAll 9 heldTwice ⟨.empty {}, (), []⟩).any (fun m =>
      (∀ c ∈ [⟨1, 0⟩, ⟨0, 0⟩, ⟨2, 0⟩, ⟨3, 0⟩], (m.solver.constraintAt? c).isSome) ∧
      ((m.solver.constraintAt? ⟨0, 0⟩).any fun n => n.enabled = true) ∧
      (((Call.enableGroup (.constraint ⟨1, 0⟩ (.constraint ⟨0, 0⟩
        (.nested (.constraint ⟨2, 0⟩ .empty) (.constraint ⟨3, 0⟩ .empty))))).run 9).exec m).any
          fun p => Call.hasFailed (.unsatisfiableRequired ⟨3, 0⟩) p.1) = true := by
    decide +kernel
  simp only [Option.any_eq_true, decide_eq_true_eq] at hany
  obtain ⟨m, hm, hlive, ⟨n, hn, hen⟩, ⟨r, m'⟩, hrun, hr⟩ := hany
  obtain rfl := eq_error_of_hasFailed hr
  exact ⟨m, m', hm, hrun, hlive, ⟨n, hn, hen⟩, (leavesOff_of_enableGroup_error hrun).1 hlive⟩

/-- A group of a stored constraint and one that does not exist cannot be enabled, and the stored
constraint stays enabled. -/
theorem enableGroup_error_not_leavesOff : ∃ m m' : Machine Unit Nat,
    Call.runAll 9 [.newVariables [0], .insert (.stay .strong ⟨0, 0⟩)] ⟨.empty {}, (), []⟩ = some m ∧
    (∃ plans, Run True {} plans m) ∧
    ((Call.enableGroup (.constraint ⟨0, 0⟩ (.constraint ⟨7, 0⟩ .empty))).run 9).exec m =
      some (.error (.unknownConstraint ⟨7, 0⟩), m') ∧
    ¬ m.solver.Enabled ⟨0, 0⟩ ∧ m'.solver.Enabled ⟨0, 0⟩ ∧ ¬ m.solver.LeavesOff m'.solver := by
  have hany : (Call.runAll (W := Unit) (T := Nat) 9
      [.newVariables [0], .insert (.stay .strong ⟨0, 0⟩)] ⟨.empty {}, (), []⟩).any (fun m =>
        ((m.solver.constraintAt? ⟨0, 0⟩).any fun n => n.enabled = false) ∧
        (((Call.enableGroup (.constraint ⟨0, 0⟩ (.constraint ⟨7, 0⟩ .empty))).run 9).exec m).any
          fun p => Call.hasFailed (.unknownConstraint ⟨7, 0⟩) p.1 ∧
            (p.2.solver.constraintAt? ⟨0, 0⟩).any fun n => n.enabled = true) = true := by
    decide +kernel
  simp only [Option.any_eq_true, decide_eq_true_eq] at hany
  obtain ⟨m, hm, ⟨n, hn, hoff⟩, ⟨r, m'⟩, hrun, hr, n', hn', hen'⟩ := hany
  obtain rfl := eq_error_of_hasFailed hr
  refine ⟨m, m', hm, Run.runAll (.start ()) (by decide) hm, hrun,
    (Solver.not_enabled_iff hn).2 hoff, ⟨n', hn', hen'⟩, fun hleaves => ?_⟩
  obtain ⟨n'', hn'', hoff'⟩ := hleaves _ n hn hoff
  exact (Solver.not_enabled_iff hn'').2 hoff' ⟨n', hn', hen'⟩

end Call

end DeltaBlue
