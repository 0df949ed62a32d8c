import DeltaBlue.Proofs.Required

/-!
# Taking back an enable

An enable that leaves a required constraint without a method is taken back, not by restoring what was
there, but by removing the constraint and adding what this strands. Afterwards the constraint is out of
the graph whatever has happened. No other constraint is switched on or off unless a cycle was counted
on the way (`Solver.Steady`). If nothing but the failure itself was counted, every required constraint
that had a method has one again. And if it is the constraint itself that found no method, all others
are as they were: it has displaced nothing, since a constraint that was enforced in a pass keeps its
claimed output to the end of the pass (`Solver.Secured`) and is not the one that fails.
-/

namespace DeltaBlue

namespace Solver

variable {W T : Type}

/-- Unless a cycle was counted, no constraint but `c` was switched on or off. -/
structure Steady (c : ConstraintId) (s s' : Solver W T) : Prop where
  /-- Cycles are counted up. -/
  cycles : s.metrics.cycles ≤ s'.metrics.cycles
  /-- The flags are the same if no cycle was counted. -/
  flags : s'.metrics.cycles = s.metrics.cycles → ∀ k, k ≠ c →
    (s'.constraintAt? k).map Constraint.enabled = (s.constraintAt? k).map Constraint.enabled

/-- The constraint determines a variable that is claimed in the pass. -/
def Secured (s : Solver W T) (mark : Mark) (c : ConstraintId) : Prop :=
  ∃ o, s.Determines c o ∧ s.Claimed mark o

variable {s s' : Solver W T} {c k : ConstraintId} {node : Constraint W T} {mark : Mark}

/-- Steady changes compose. -/
theorem Steady.transitive (c : ConstraintId) : SolveM.Transitive (Steady (W := W) (T := T) c) where
  refl _ := ⟨Nat.le_refl _, fun _ _ _ => rfl⟩
  trans h h' :=
    { cycles := Nat.le_trans h.cycles h'.cycles
      flags := by
        intro he k hk
        have h1 := h.cycles
        have h2 := h'.cycles
        exact (h'.flags (by omega) k hk).trans (h.flags (by omega) k hk) }

/-- A change of a constraint that is `c` or stays switched on or off. -/
theorem steady_modifyConstraint {f : Constraint W T → Constraint W T}
    (hf : k ≠ c → ∀ x, (f x).enabled = x.enabled) (s : Solver W T) :
    s.Steady c (s.modifyConstraint k f) where
  cycles := Nat.le_refl _
  flags _ j hj := by
    rw [constraintAt?_modifyConstraint]
    by_cases hjk : j = k
    · rw [if_pos hjk, hjk, Option.map_map]
      congr 1
      funext x
      exact hf (hjk ▸ hj) x
    · rw [if_neg hjk]

/-- Repainting moves no determiner and no mark, so what is secured stays secured. -/
theorem Repaints.secured (hr : s.Repaints s') (h : s.Secured mark c) : s'.Secured mark c := by
  obtain ⟨o, hdet, hclaimed⟩ := h
  exact ⟨o, hr.determines.2 hdet, hr.claimed.2 hclaimed⟩

/-- A further claim leaves secured what is secured. -/
theorem Secured.marked (v : VarId) (h : s.Secured mark c) :
    (s.modifyVariable v fun x => { x with mark := mark }).Secured mark c := by
  obtain ⟨o, hdet, x, hx, hmark⟩ := h
  exact ⟨o, hdet, claimed_marked.2 ⟨by rw [hx]; rfl, .inr ⟨x, hx, hmark⟩⟩⟩

/-- A constraint exists afterwards too, with the same definition. -/
theorem Redeclares.exists_of (hr : s.Redeclares s') (hnode : s.constraintAt? c = some node) :
    ∃ node', s'.constraintAt? c = some node' ∧ node'.definition = node.definition := by
  have hc := hr c
  rw [hnode, Option.map_some] at hc
  obtain ⟨node', hnode', he⟩ := Option.map_eq_some_iff.1 hc
  exact ⟨node', hnode', (Prod.mk.inj he).1⟩

/-- An idle constraint is not secured. -/
theorem Secured.not_idle (h : s.Secured mark c) : ¬ s.Idle c := by
  rintro ⟨n, hn, _, hidle⟩
  obtain ⟨o, hdet, _⟩ := h
  exact not_determines hn hidle o hdet

/-- An installation takes an unclaimed variable, so secured constraints stay secured. -/
theorem Installed.secured {i : Nat} {m : Method W T} {x : Variable T}
    (hi : Installed s s' mark k node i m x) (hwf : s.WellFormed) (h : s.Secured mark c) :
    s'.Secured mark c := by
  obtain ⟨o, hdet, hclaimed⟩ := h
  -- a claimed variable is not taken
  have hne : o ≠ m.output := by
    rintro rfl
    obtain ⟨y, hy, hmark⟩ := hclaimed
    obtain rfl := Option.some.inj (hi.output.1.symm.trans hy)
    exact hi.output.2.1 hmark
  refine ⟨o, (hi.determines_iff hwf c o).2 ?_, (hi.claimed_iff hwf).2 ⟨hne, .inl hclaimed⟩⟩
  rw [if_neg hne]
  exact hdet

end Solver

namespace SolveM

open Solver (FaultsLe Steady Sound)

variable {W T : Type} {m : Machine W T} {c : ConstraintId} {node : Constraint W T} {cells : Prop}

/-- Within a pass only the breaking of a cycle switches constraints, and this counts one. -/
theorem steady_frame (c : ConstraintId) : PassFrame (W := W) (T := T) (Steady c) where
  toTransitive := Steady.transitive c
  onPaint _ _ _ := ⟨Nat.le_refl _, fun _ _ _ => rfl⟩
  onWork hf s := ⟨Nat.le_of_eq (Prod.mk.inj (hf s.metrics)).1.symm, fun _ _ _ => rfl⟩
  onVariable _ _ _ := ⟨Nat.le_refl _, fun _ _ _ => rfl⟩
  onForce _ _ _ _ := Solver.steady_modifyConstraint (by intros; rfl) _
  onUnsatisfied _ := ⟨Nat.le_refl _, fun _ _ _ => rfl⟩
  onBreak _ _ := ⟨Nat.le_succ _, fun he => absurd he (Nat.succ_ne_self _)⟩
  onPass _ := ⟨Nat.le_refl _, fun _ _ _ => rfl⟩

/-- A displacement leaves secured what is secured. -/
theorem Displacement.secured {mark : Mark} {s s' : Solver W T} {k : ConstraintId}
    {r : Except SolveError (Option ConstraintId)} (hd : Displacement mark k node s r s')
    (h : s.WellFormed) (hsecured : s.Secured mark c) : s'.Secured mark c := by
  cases hd with
  | refused halike => exact halike.repaints.secured hsecured
  | left _ halike => exact halike.repaints.secured hsecured
  | enforced hi hrepaint => exact (hrepaint.secured (hi.secured h hsecured)).marked _

/-- A displacement secures the constraint, or leaves the constraints as they are. -/
theorem Displacement.unchanged_or_secured {mark : Mark} {s s' : Solver W T}
    {r : Except SolveError (Option ConstraintId)} (hd : Displacement mark c node s r s') :
    (∀ k, r ≠ .ok (some k)) ∧ (∀ k, s'.constraintAt? k = s.constraintAt? k) ∨
      (∀ e, r ≠ .error e) ∧ s'.Secured mark c := by
  cases hd with
  | refused halike => exact .inl ⟨nofun, halike.constraintAt⟩
  | left _ halike => exact .inl ⟨nofun, halike.constraintAt⟩
  | @enforced s₁ s₂ i method x hi hrepaint =>
    have hlive : (s₂.variableAt? method.output).isSome := by
      rw [hrepaint.live, hi.variableAt, hi.output.1]
      rfl
    exact .inr ⟨nofun, method.output, hrepaint.determines.2 hi.determines,
      Solver.claimed_marked.2 ⟨hlive, .inl rfl⟩⟩

section

variable {remove : ConstraintId → SolveM W T Unit} {fuel : Nat} {mark : Mark}
  (hremove : ∀ c, Obeys FaultsLe (remove c))
include hremove

/-- The constraint at which a chain of displacements fails is not one that is secured. -/
theorem ensures_displace_secured {steps : Nat} {k : ConstraintId} (h : m.solver.WellFormed)
    (hidle : m.solver.Idle k) (hsecured : m.solver.Secured mark c) :
    Ensures (displace remove fuel mark steps k) m fun r m' =>
      m'.solver.metrics.cycles = m.solver.metrics.cycles →
        r ≠ .error (.unsatisfiableRequired c) := by
  refine ensures_displace_of_enforce (J := fun k m₁ => m₁.solver.WellFormed ∧ m₁.solver.Idle k ∧
    m₁.solver.metrics.cycles = m.solver.metrics.cycles ∧ m₁.solver.Secured mark c) ?_
    ⟨h, hidle, rfl, hsecured⟩
  rintro k m₁ ⟨h₁, hidle₁, hcycles₁, hsecured₁⟩
  obtain ⟨node, _, hstep⟩ := ensures_enforce_displacement fuel mark hremove h₁ hidle₁
  refine hstep.mono fun r m₂ hd => ?_
  rcases hd with ⟨e, rfl, hlt⟩ | hd
  · exact fun hcycles => by omega
  match r, hd.counted h₁, hd.secured h₁ hsecured₁ with
  | .error e, ⟨he, _⟩, _ =>
    -- what fails is idle, and what is secured is not
    subst he
    intro _ he
    obtain rfl := SolveError.unsatisfiableRequired.inj (Except.error.inj he)
    exact hsecured₁.not_idle hidle₁
  | .ok none, _, _ => exact fun _ => nofun
  | .ok (some next), ⟨h₂, hidle₂, hf₂⟩, hsecured₂ =>
    exact ⟨h₂, hidle₂, (Prod.mk.inj hf₂).1.trans hcycles₁, hsecured₂⟩

/-- A chain of displacements that fails at the constraint with which it begins has changed no
constraint. -/
theorem ensures_displace_self {steps : Nat} (h : m.solver.WellFormed) (hidle : m.solver.Idle c) :
    Ensures (displace remove fuel mark steps c) m fun r m' =>
      m'.solver.metrics.cycles = m.solver.metrics.cycles →
        r = .error (.unsatisfiableRequired c) →
          ∀ k, m'.solver.constraintAt? k = m.solver.constraintAt? k := by
  cases steps with
  | zero => exact ensures_unfinished
  | succ steps =>
    obtain ⟨node, _, hstep⟩ := ensures_enforce_displacement fuel mark hremove h hidle
    unfold displace
    rw [ensures_bind]
    refine hstep.mono fun r m₁ hd => ?_
    rcases hd with ⟨e, rfl, hlt⟩ | hd
    · exact fun hcycles => by omega
    have hcounted := hd.counted h
    cases r with
    -- nothing was displaced before the failure
    | error e =>
      rcases hd.unchanged_or_secured with ⟨_, hsame⟩ | ⟨hok, _⟩
      · exact fun _ _ => hsame
      · exact absurd rfl (hok e)
    | ok displaced =>
      cases displaced with
      | none => exact (ensures_pure _).2 fun _ he => by cases he
      | some next =>
        -- the constraint has claimed its output, and the rest of the chain cannot fail at it
        obtain ⟨h₁, hidle₁, hf₁⟩ := hcounted
        rcases hd.unchanged_or_secured with ⟨hnone, _⟩ | ⟨_, hsecured⟩
        · exact absurd rfl (hnone next)
        · refine (ensures_displace_secured hremove h₁ hidle₁ hsecured).mono ?_
          intro r m' hrest hcycles he
          exact absurd he (hrest (hcycles.trans (Prod.mk.inj hf₁).1.symm))

end

/-- Adding a constraint that finds no method itself changes no constraint. -/
theorem ensures_add_self {fuel : Nat} (h : m.solver.WellFormed) (hidle : m.solver.Idle c) :
    Ensures (add fuel c) m fun r m' =>
      m'.solver.metrics.cycles = m.solver.metrics.cycles →
        r = .error (.unsatisfiableRequired c) →
          ∀ k, m'.solver.constraintAt? k = m.solver.constraintAt? k := by
  refine ensures_add_of_displace fun fuel => ?_
  have hremove : ∀ k, Obeys (W := W) (T := T) FaultsLe (withdraw (add fuel) fuel k) :=
    withdraw_obeys faultsLe_frame (add_obeys faultsLe_frame fuel) fuel
  exact ensures_displace_self (m := ⟨_, m.world, m.journal⟩) hremove h.nextPass hidle

/-! ## Enabling -/

/-- What enabling `c` does besides its passes switches `c` at most. -/
theorem steady_enter (c : ConstraintId) : EnterFrame (W := W) (T := T) c (Steady c) where
  toPassFrame := steady_frame c
  onLeave := Solver.steady_modifyConstraint (absurd rfl)
  onChange _ := ⟨Nat.le_refl _, fun _ _ _ => rfl⟩
  onEnter := Solver.steady_modifyConstraint (absurd rfl)

/-- Enabling `c` switches no other constraint on or off unless a cycle is counted. -/
theorem enable_steady (fuel : Nat) (c : ConstraintId) :
    Obeys (W := W) (T := T) (Steady c) (enable fuel c) :=
  enable_obeys (steady_enter c) fuel

/-- The constraint that was enabled is not added again itself. -/
theorem ensures_restore_self {fuel : Nat} :
    Ensures (restore fuel c c) m fun r m' => r = .ok () ∧ m' = m :=
  ensures_restore_cases (fun hne => absurd rfl hne) fun _ => ⟨rfl, rfl⟩

/-- Taking back the enabling of a constraint without a method that failed itself takes it out of the
graph, and does nothing else. -/
theorem ensures_rollBackEnable_self {fuel : Nat} (hnode : m.solver.constraintAt? c = some node)
    (hidle : node.enforcing = none) :
    Ensures (rollBackEnable fuel c c) m fun r m' =>
      r = .ok () ∧ m.solver.Detached m'.solver c node := by
  have hnot : ¬ node.isEnforcing = true := by
    simp [Constraint.isEnforcing, hidle]
  refine ensures_rollBackEnable_cases (fun hnone => by cases hnode.symm.trans hnone)
    fun node' m₀ hnode' hoff _ _ _ => ?_
  obtain rfl := Option.some.inj (hnode.symm.trans hnode')
  rw [if_neg hnot]
  refine (ensures_deregister hoff hidle).mono ?_
  rintro _ m₁ ⟨rfl, hd, _⟩ journal _
  refine ensures_restore_self.mono ?_
  rintro r m' ⟨hr, rfl⟩
  exact ⟨hr, hd⟩

/-- An enable that is taken back leaves the constraint out of the graph. If it was the constraint
itself that found no method, and no cycle was counted, all other constraints are as they were. -/
theorem ensures_enable_takenBack {fuel : Nat} (h : m.solver.Sound cells)
    (hnode : m.solver.constraintAt? c = some node) (hoff : node.enabled = false) :
    Ensures (enable fuel c) m fun r m' => ∀ failed, r = .error (.unsatisfiableRequired failed) →
      ¬ m'.solver.Enabled c ∧ (m'.solver.metrics.cycles = m.solver.metrics.cycles → failed = c →
        ∀ k, k ≠ c → m'.solver.constraintAt? k = m.solver.constraintAt? k) := by
  refine ensures_enable h hnode hoff fun m₁ h₁ he _ _ hf₁ _ => ?_
  have hcycles₁ := (Prod.mk.inj hf₁).1
  refine ensures_settle_cases ((add_sound cells fuel m₁ c h₁ he.idle).and
    ((add_obeys propagates_frame fuel c m₁).and ((add_obeys faultsLe_frame fuel c m₁).and
      (ensures_add_self h₁.toWellFormed he.idle)))) (fun _ _ _ hr => by cases hr) ?_ ?_
  · rintro failed m₂ ⟨h₂, hprop, hle₂, hself⟩
    have hc₁ := he.reset.constraintAt_self
    obtain ⟨n, hn⟩ := Option.isSome_iff_exists.1 ((hprop.constraint_live c).trans he.idle.live)
    -- if `c` itself has failed, nothing is undone but its own entering
    have hback : Ensures (rollBackEnable fuel c failed) m₂ fun _ m' =>
        m₂.solver.metrics.cycles = m₁.solver.metrics.cycles → failed = c →
          ∀ k, k ≠ c → m'.solver.constraintAt? k = m.solver.constraintAt? k := by
      by_cases hcase : m₂.solver.metrics.cycles = m₁.solver.metrics.cycles ∧ failed = c
      · obtain ⟨hcycles, rfl⟩ := hcase
        have hsame := hself hcycles rfl
        refine (ensures_rollBackEnable_self ((hsame failed).trans hc₁) rfl).mono ?_
        rintro r m' ⟨_, hd⟩ _ _ k hk
        rw [hd.reset.constraintAt_ne hk, hsame, he.reset.constraintAt_ne hk]
      · exact fun _ _ _ hcycles hfailed => absurd ⟨hcycles, hfailed⟩ hcase
    refine ((ensures_rollBackEnable_met h₂ hn).and (hback.and (rollBackEnable_obeys faultsLe_frame
      fuel (fun _ => Solver.faultsLe_of_eq rfl) failed m₂))).mono ?_
    rintro _ m' ⟨⟨rfl, hgone, _⟩, hsame, hle⟩ failed' hfailed
    refine ⟨hgone, fun hcycles hc => ?_⟩
    obtain rfl := SolveError.unsatisfiableRequired.inj (Except.error.inj hfailed)
    have hc₂ := hle₂.cycles
    have hc₃ := hle.cycles
    exact hsame (by omega) hc
  · exact fun e m₂ hother _ failed hfailed => absurd (Except.error.inj hfailed) (hother failed)

end SolveM

namespace Run

open SolveM (Ensures)

variable {W T : Type} {own : Prop} {config : Config} {plans : List (Plan × Nat)}
  {m m' : Machine W T} {c failed : ConstraintId} {node : Constraint W T}

/-- A call that enables fails as the enabling does. -/
theorem exec_enable_of_error {fuel : Nat} {e : SolveError}
    (hrun : ((Call.enable c : Call W T).run fuel).exec m = some (.error e, m')) :
    SolveM.exec (SolveM.enable fuel c) m = some (.error e, m') := by
  rw [Call.run, SolveM.exec_bind] at hrun
  cases hexec : SolveM.exec (SolveM.enable fuel c) m with
  | none =>
    rw [hexec] at hrun
    cases hrun
  | some p =>
    -- the answer is wrapped up after the enabling, which fails nothing
    obtain ⟨r, m₁⟩ := p
    rw [hexec] at hrun
    cases r with
    | ok _ => cases hrun
    | error e' =>
      obtain ⟨he, rfl⟩ := Prod.mk.inj (Option.some.inj hrun)
      rw [Except.error.inj he]

/-- When the enabling of a constraint that was not enabled fails because `failed` finds no method, the
constraint is out of the graph afterwards, without a method and in no incidence set. Unless a cycle
was counted, every other constraint is switched on or off as before, and if the constraint itself has
failed, every other one is as before. And if nothing was counted but the one failure, every required
constraint that had a method in force has one again. -/
theorem enable_taken_back (h : Run own config plans m)
    (hnode : m.solver.constraintAt? c = some node) (hoff : node.enabled = false) {fuel : Nat}
    (hrun : ((Call.enable c).run fuel).exec m = some (.error (.unsatisfiableRequired failed), m')) :
    (∃ node', m'.solver.constraintAt? c = some node' ∧ node'.enabled = false ∧
      node'.enforcing = none ∧ ∀ v x, m'.solver.variableAt? v = some x → c ∉ x.incident) ∧
    (m'.solver.metrics.cycles = m.solver.metrics.cycles → ∀ k, k ≠ c →
      (m'.solver.constraintAt? k).map Constraint.enabled =
        (m.solver.constraintAt? k).map Constraint.enabled) ∧
    (m'.solver.metrics.cycles = m.solver.metrics.cycles → failed = c → ∀ k, k ≠ c →
      m'.solver.constraintAt? k = m.solver.constraintAt? k) ∧
    (m'.solver.metrics.faults = (m.solver.metrics.cycles, m.solver.metrics.unsatisfiable + 1) →
      ∀ k n, m.solver.constraintAt? k = some n → n.definition.strength = .required →
        n.isEnforcing = true →
          ∃ n', m'.solver.constraintAt? k = some n' ∧ n'.isEnforcing = true) := by
  have hsound := h.sound.1
  have henable := exec_enable_of_error hrun
  obtain ⟨hsound', _⟩ := SolveM.enable_keeps fuel c m hsound _ m' henable
  have hdeclared := SolveM.enable_redeclares fuel c m _ m' henable
  have hsteady := SolveM.enable_steady fuel c m _ m' henable
  obtain ⟨hgone, hself⟩ :=
    SolveM.ensures_enable_takenBack hsound hnode hoff _ m' henable failed rfl
  refine ⟨?_, hsteady.flags, hself, fun hfaults k n hn hreq hen => ?_⟩
  · obtain ⟨node', hnode', _⟩ := hdeclared.exists_of hnode
    have hoff' : node'.enabled = false := by
      by_contra hon
      exact hgone ⟨node', hnode', by simpa using hon⟩
    refine ⟨node', hnode', hoff', ?_, fun v x hx hmem => ?_⟩
    · -- a constraint with a method in force would be enabled
      by_contra henf
      obtain ⟨i, hi⟩ := Option.ne_none_iff_exists'.1 henf
      rw [(hsound'.enforcing hnode' hi).1] at hoff'
      cases hoff'
    · obtain ⟨n, hn, hon, _⟩ := (hsound'.incident hx c).1 hmem
      exact hgone ⟨n, hn, hon⟩
  · obtain ⟨hcycles, hunsat⟩ := Prod.mk.inj hfaults
    obtain ⟨i, hi⟩ := Option.isSome_iff_exists.1 hen
    obtain ⟨n', hn', hdef⟩ := hdeclared.exists_of hn
    refine ⟨n', hn', ?_⟩
    have hon := (hsound.enforcing hn hi).1
    have hkc : k ≠ c := by
      rintro rfl
      obtain rfl := Option.some.inj (hnode.symm.trans hn)
      rw [hoff] at hon
      cases hon
    have hon' : n'.enabled = true := by
      have hflag := hsteady.flags hcycles k hkc
      rw [hn, hn', Option.map_some, Option.map_some, hon] at hflag
      exact Option.some.inj hflag
    -- without a method it would be unmet, and would have been so before
    by_contra hidle
    rw [Constraint.isEnforcing, Option.not_isSome_iff_eq_none] at hidle
    obtain ⟨n₀, hn₀, _, hidle₀, _⟩ := SolveM.ensures_enable_met hsound _ m' henable hcycles
      (Nat.le_of_eq hunsat) k ⟨n', hn', hon', hidle, hdef ▸ hreq⟩
    obtain rfl := Option.some.inj (hn.symm.trans hn₀)
    rw [hidle₀] at hi
    cases hi

/-- Two variables that a required relation holds equal, and a copy of the one to the other that is
stored but not enabled. -/
def requiredAndCopy : List (Call Unit Nat) :=
  [.newVariables [1, 2],
    .constrain (.relation .required ⟨1, 0⟩ [⟨0, 0⟩] [] .first),
    .insert (.relation .medium ⟨1, 0⟩ [] [⟨0, 0⟩] .first)]

/-- The copy displaces the relation, which finds no other method, and is taken back; the relation has
a method in force again. -/
theorem enable_taken_back_copy : ∃ (m m' : Machine Unit Nat) (n : Constraint Unit Nat),
    Call.runAll 9 requiredAndCopy ⟨.empty {}, (), []⟩ = some m ∧
    ((Call.enable ⟨1, 0⟩).run 9).exec m = some (.error (.unsatisfiableRequired ⟨0, 0⟩), m') ∧
    m.solver.constraintAt? ⟨0, 0⟩ = some n ∧ n.definition.strength = .required ∧
    n.isEnforcing = true ∧
    m'.solver.metrics.faults = (m.solver.metrics.cycles, m.solver.metrics.unsatisfiable + 1) ∧
    (∃ node', m'.solver.constraintAt? ⟨1, 0⟩ = some node' ∧ node'.enabled = false) ∧
    ∃ n', m'.solver.constraintAt? ⟨0, 0⟩ = some n' ∧ n'.isEnforcing = true := by
  have hany : (Call.runAll 9 requiredAndCopy ⟨.empty {}, (), []⟩).any (fun m =>
      ((m.solver.constraintAt? ⟨1, 0⟩).any fun node => node.enabled = false) ∧
      ((m.solver.constraintAt? ⟨0, 0⟩).any fun n =>
        n.definition.strength = .required ∧ n.isEnforcing = true) ∧
      (((Call.enable ⟨1, 0⟩).run 9).exec m).any fun p =>
        Call.hasFailed (.unsatisfiableRequired ⟨0, 0⟩) p.1 ∧
        p.2.solver.metrics.faults =
          (m.solver.metrics.cycles, m.solver.metrics.unsatisfiable + 1)) = true := by
    decide +kernel
  simp only [Option.any_eq_true, decide_eq_true_eq] at hany
  obtain ⟨m, hm, ⟨node, hnode, hoff⟩, ⟨n, hn, hreq, hen⟩, ⟨r, m'⟩, hrun, hr, hfaults⟩ := hany
  obtain rfl := Call.eq_error_of_hasFailed hr
  have hstart : Run False {} [] (⟨.empty {}, (), []⟩ : Machine Unit Nat) := .start ()
  obtain ⟨plans, h⟩ := runAll hstart (by decide) hm
  obtain ⟨⟨node', hnode', hoff', _⟩, _, _, hkeep⟩ := enable_taken_back h hnode hoff hrun
  exact ⟨m, m', n, hm, hrun, hn, hreq, hen, hfaults, ⟨node', hnode', hoff'⟩,
    hkeep hfaults ⟨0, 0⟩ n hn hreq hen⟩

/-- Two required relations between variables, both in force, and a strong one that is stored but not
enabled. -/
def twoRequiredRelations : List (Call Unit Nat) :=
  [.newVariables [0, 0, 0],
    .insert (.relation .strong ⟨2, 0⟩ [⟨1, 0⟩] [⟨0, 0⟩] .first),
    .constrain (.relation .required ⟨0, 0⟩ [⟨1, 0⟩, ⟨2, 0⟩] [] .first),
    .constrain (.relation .required ⟨0, 0⟩ [⟨1, 0⟩] [] .first)]

/-- Enabling the strong relation fails and is taken back, and leaves the second required relation
without the method that it had: what is added again first takes the output of what comes later. -/
theorem not_enforced_after_taking_back : ∃ (m m' : Machine Unit Nat) (n n' : Constraint Unit Nat),
    Call.runAll 9 twoRequiredRelations ⟨.empty {}, (), []⟩ = some m ∧
    (∃ plans, Run True {} plans m) ∧
    ((Call.enable ⟨0, 0⟩).run 9).exec m = some (.error (.unsatisfiableRequired ⟨1, 0⟩), m') ∧
    m.solver.constraintAt? ⟨2, 0⟩ = some n ∧ n.isEnforcing = true ∧
    m'.solver.constraintAt? ⟨2, 0⟩ = some n' ∧ n'.enabled = true ∧ n'.isEnforcing = false := by
  have hany : (Call.runAll 9 twoRequiredRelations ⟨.empty {}, (), []⟩).any (fun m =>
      ((m.solver.constraintAt? ⟨2, 0⟩).any fun n => n.isEnforcing = true) ∧
      (((Call.enable ⟨0, 0⟩).run 9).exec m).any fun p =>
        Call.hasFailed (.unsatisfiableRequired ⟨1, 0⟩) p.1 ∧
        (p.2.solver.constraintAt? ⟨2, 0⟩).any fun n' =>
          n'.enabled = true ∧ n'.isEnforcing = false) = true := by
    decide +kernel
  simp only [Option.any_eq_true, decide_eq_true_eq] at hany
  obtain ⟨m, hm, ⟨n, hn, hen⟩, ⟨r, m'⟩, hrun, hr, n', hn', hrest⟩ := hany
  obtain rfl := Call.eq_error_of_hasFailed hr
  have hstart : Run True {} [] (⟨.empty {}, (), []⟩ : Machine Unit Nat) := .start ()
  obtain ⟨plans, h⟩ := runAll hstart (by decide) hm
  exact ⟨m, m', n, n', hm, ⟨plans, h⟩, hrun, hn, hen, hn', hrest⟩

end Run

end DeltaBlue
