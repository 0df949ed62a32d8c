import DeltaBlue.Proofs.Runs

/-!
# Required constraints

A required constraint of the graph that has no method in force is `Unmet`. It can become so when it is
displaced and then finds no method that it may use, or when the chain of displacements ends because a
cycle was found; the first is counted as an unsatisfiable constraint and the second as a cycle. So
whatever is done without counting either of them leaves no constraint unmet that was met before.

A chain that ends because a constraint finds no method counts one unsatisfiable constraint, and this
is the only constraint that it leaves unmet (`Chained`). An enable that fails in this way is rolled
back: as long as the rollback itself counts nothing, all constraints are met that were met before.
-/

namespace DeltaBlue

namespace Solver

variable {W T : Type}

/-- The constraint is required and part of the graph, and no method of it is in force. -/
def Unmet (s : Solver W T) (c : ConstraintId) : Prop :=
  ∃ node, s.constraintAt? c = some node ∧ node.enabled = true ∧ node.enforcing = none ∧
    node.definition.strength = .required

/-- Cycles and unsatisfiable constraints are counted up. -/
structure FaultsLe (s s' : Solver W T) : Prop where
  /-- Cycles are counted up. -/
  cycles : s.metrics.cycles ≤ s'.metrics.cycles
  /-- Unsatisfiable constraints are counted up. -/
  unsatisfiable : s.metrics.unsatisfiable ≤ s'.metrics.unsatisfiable

variable {s s₁ s' : Solver W T} {c k : ConstraintId} {node : Constraint W T}

/-- What is counted up by two operations is counted up by both together. -/
theorem FaultsLe.transitive : SolveM.Transitive (FaultsLe (W := W) (T := T)) where
  refl _ := ⟨Nat.le_refl _, Nat.le_refl _⟩
  trans h h' := ⟨Nat.le_trans h.cycles h'.cycles, Nat.le_trans h.unsatisfiable h'.unsatisfiable⟩

/-- Equal counts are counted up. -/
theorem faultsLe_of_eq (h : s'.metrics.faults = s.metrics.faults) : s.FaultsLe s' := by
  obtain ⟨hcycles, hunsat⟩ := Prod.mk.inj h
  exact ⟨Nat.le_of_eq hcycles.symm, Nat.le_of_eq hunsat.symm⟩

/-- If nothing was counted in the end, nothing was counted in between. -/
theorem FaultsLe.eq_of_eq (h : s.FaultsLe s₁) (h' : s₁.FaultsLe s')
    (he : s'.metrics.faults = s.metrics.faults) :
    s₁.metrics.faults = s.metrics.faults ∧ s'.metrics.faults = s₁.metrics.faults := by
  obtain ⟨hcycles, hunsat⟩ := Prod.mk.inj he
  have h1 := h.cycles
  have h2 := h.unsatisfiable
  have h3 := h'.cycles
  have h4 := h'.unsatisfiable
  unfold Metrics.faults
  simp only [Prod.mk.injEq]
  omega

/-- An unmet constraint is idle. -/
theorem Unmet.idle (h : s.Unmet c) : s.Idle c := by
  obtain ⟨node, hnode, hen, hidle, _⟩ := h
  exact ⟨node, hnode, hen, hidle⟩

/-! ## What the changes of the graph leave unmet -/

/-- Which constraints are unmet depends on the constraints only. -/
theorem unmet_congr (h : ∀ c, s'.constraintAt? c = s.constraintAt? c) :
    s'.Unmet k ↔ s.Unmet k := by
  unfold Unmet
  rw [h]

/-- Changes beside the graph leave the same constraints unmet. -/
theorem Aside.unmet (h : s.Aside s') : s'.Unmet k ↔ s.Unmet k := by
  constructor
  · rintro ⟨node, hnode, hen, hrest⟩
    exact ⟨node, (h.constraintAt hen).1 hnode, hen, hrest⟩
  · rintro ⟨node, hnode, hen, hrest⟩
    exact ⟨node, (h.constraintAt hen).2 hnode, hen, hrest⟩

/-- A constraint that enters the graph is the only one that may become unmet. -/
theorem Entered.unmet (he : Entered s s' c node) (hk : s'.Unmet k) : k = c ∨ s.Unmet k := by
  obtain ⟨n, hn, hrest⟩ := hk
  exact (he.reset.found hn).imp And.left fun hold => ⟨n, hold.2, hrest⟩

/-- A constraint that leaves the graph leaves no other unmet. -/
theorem Detached.unmet (hd : Detached s s' c node) (hk : s'.Unmet k) : s.Unmet k := by
  obtain ⟨n, hn, hen, hrest⟩ := hk
  exact ⟨n, (hd.of_enabled hn hen).2, hen, hrest⟩

/-- Installing a method leaves nothing unmet but the constraint that it displaces. -/
theorem Installed.unmet {mark : Mark} {i : Nat} {m : Method W T} {x : Variable T}
    (hi : Installed s s' mark c node i m x) (hk : s'.Unmet k) :
    x.determinedBy = some k ∨ s.Unmet k ∧ k ≠ c := by
  obtain ⟨n, hn, hen, hidle, hreq⟩ := hk
  obtain ⟨_, rfl⟩ | ⟨_, hdis, _⟩ | ⟨hkc, _, hn⟩ := hi.found hn
  · cases hidle
  · exact .inl hdis
  · exact .inr ⟨⟨n, hn, hen, hidle, hreq⟩, hkc⟩

end Solver

namespace SolveM

open Solver (FaultsLe Sound)

variable {W T : Type} {m : Machine W T} {c : ConstraintId} {node : Constraint W T} {cells : Prop}

/-- No step of propagation counts down. -/
theorem faultsLe_frame : PassFrame (W := W) (T := T) FaultsLe where
  toTransitive := FaultsLe.transitive
  onPaint _ _ _ := Solver.faultsLe_of_eq rfl
  onWork hf s := Solver.faultsLe_of_eq (hf s.metrics)
  onVariable _ _ _ := Solver.faultsLe_of_eq rfl
  onForce _ _ _ _ := Solver.faultsLe_of_eq rfl
  onUnsatisfied _ := ⟨Nat.le_refl _, Nat.le_succ _⟩
  onBreak _ _ := ⟨Nat.le_succ _, Nat.le_refl _⟩
  onPass _ := Solver.faultsLe_of_eq rfl

/-- A walk counts nothing that went wrong. -/
theorem sameFaults_frame :
    WalkFrame (W := W) (T := T) fun s s' => s'.metrics.faults = s.metrics.faults where
  refl _ := rfl
  trans h h' := h'.trans h
  onPaint _ _ _ := rfl
  onWork hf s := hf s.metrics

/-! ## Chains of displacements -/

/-- A cycle that is broken is counted. -/
theorem ensures_breakCycle_counts {remove : ConstraintId → SolveM W T Unit}
    (hremove : ∀ c, Obeys FaultsLe (remove c)) (closing : ConstraintId) (claimed : VarId) :
    Ensures (breakCycle remove closing claimed) m fun r m' => (∃ e, r = .error e) ∧
      m.solver.metrics.cycles < m'.solver.metrics.cycles := by
  unfold breakCycle
  simp only [ensures_bind, ensures_note, ensures_count, ensures_changeConstraint]
  split
  · refine (hremove closing _).mono fun r m' hle => ?_
    have hcycles := hle.cycles
    cases r with
    | ok _ => exact (ensures_throw _).2 ⟨⟨_, rfl⟩, hcycles⟩
    | error _ => exact ⟨⟨_, rfl⟩, hcycles⟩
  · exact ⟨⟨_, rfl⟩, Nat.lt_succ_self _⟩

/-- What enforcing an idle constraint in a pass comes to if no cycle is counted. -/
inductive Displacement (mark : Mark) (c : ConstraintId) (node : Constraint W T) (s : Solver W T) :
    Except SolveError (Option ConstraintId) → Solver W T → Prop
  /-- No method may be used, and the constraint is required. -/
  | refused {s' : Solver W T} (halike : s.Alike s')
    (hfaults : s'.metrics.faults = (s.metrics.cycles, s.metrics.unsatisfiable + 1)) :
    Displacement mark c node s (.error (.unsatisfiableRequired c)) s'
  /-- No method may be used, and the constraint is left without one. -/
  | left {s' : Solver W T} (hreq : node.definition.strength ≠ .required) (halike : s.Alike s')
    (hfaults : s'.metrics.faults = s.metrics.faults) : Displacement mark c node s (.ok none) s'
  /-- A method is put in force, everything downstream is recalculated, and the output is claimed. -/
  | enforced {s₁ s₂ : Solver W T} {i : Nat} {method : Method W T} {x : Variable T}
    (hi : s.Installed s₁ mark c node i method x) (hr : s₁.Repaints s₂)
    (hfaults : s₂.metrics.faults = s.metrics.faults) :
    Displacement mark c node s (.ok x.determinedBy)
      (s₂.modifyVariable method.output fun y => { y with mark := mark })

/-- Enforcing an idle constraint counts a cycle, or comes to one of the three displacements. -/
theorem ensures_enforce_displacement {remove : ConstraintId → SolveM W T Unit} (fuel : Nat)
    (mark : Mark) (hremove : ∀ c, Obeys FaultsLe (remove c)) (h : m.solver.WellFormed)
    (hidle : m.solver.Idle c) :
    ∃ node, m.solver.constraintAt? c = some node ∧ Ensures (enforce remove fuel mark c) m fun r m' =>
      (∃ e, r = .error e ∧ m.solver.metrics.cycles < m'.solver.metrics.cycles) ∨
        Displacement mark c node m.solver r m'.solver := by
  obtain ⟨node, hnode, hen, hnone⟩ := hidle
  refine ⟨node, hnode, ?_⟩
  refine (ensures_enforcement remove fuel mark h hnode hen hnone).mono fun r m' hcase => ?_
  cases hcase with
  | refused _ halike _ hfaults => exact .inr (.refused halike hfaults)
  | left hreq halike _ hfaults => exact .inr (.left hreq halike hfaults)
  | @enforced m₁ m₂ i method x hi _ hf₁ hsweep =>
    exact .inr (.enforced hi (sweep_repaints mark fuel _ m₁ _ m₂ hsweep)
      ((sweep_obeys sameFaults_frame mark fuel _ m₁ _ m₂ hsweep).trans hf₁))
  -- the walk has counted nothing, so the cycle that is broken is one more
  | @cycle m₁ m₂ _ i method x closing a _ hi _ hf₁ hsweep hbreak =>
    have hf₂ := (sweep_obeys sameFaults_frame mark fuel _ m₁ _ m₂ hsweep).trans hf₁
    obtain ⟨⟨e, rfl⟩, hlt⟩ := ensures_breakCycle_counts hremove closing a r m' hbreak
    rw [(Prod.mk.inj hf₂).1] at hlt
    exact .inl ⟨e, rfl, hlt⟩

/-- The constraint is counted if it fails, and nothing else is; and a displaced constraint is left idle
in a graph that is well formed. -/
def Counted (s s' : Solver W T) (c : ConstraintId) :
    Except SolveError (Option ConstraintId) → Prop
  | .error e => e = .unsatisfiableRequired c ∧
    s'.metrics.faults = (s.metrics.cycles, s.metrics.unsatisfiable + 1)
  | .ok none => s'.metrics.faults = s.metrics.faults
  | .ok (some k) => s'.WellFormed ∧ s'.Idle k ∧ s'.metrics.faults = s.metrics.faults

/-- What a displacement counts can be told from its result. -/
theorem Displacement.counted {mark : Mark} {s s' : Solver W T}
    {r : Except SolveError (Option ConstraintId)} (hd : Displacement mark c node s r s')
    (h : s.WellFormed) : Counted s s' c r := by
  cases hd with
  | refused _ hfaults => exact ⟨rfl, hfaults⟩
  | left _ _ hfaults => exact hfaults
  | @enforced s₁ s₂ i method x hi hrepaint hfaults =>
    cases hdis : x.determinedBy with
    | none => exact hfaults
    | some k =>
      obtain ⟨n, hn, hidle⟩ := hi.displaced_idle h hdis
      exact ⟨((h.installed hi).repaints hrepaint).marked method.output mark,
        ⟨n, (hrepaint.constraintAt k).trans hn, hidle⟩, hfaults⟩

/-- A displacement leaves nothing unmet but the constraint that is displaced or that fails. -/
theorem Displacement.unmet {mark : Mark} {s s' : Solver W T} {k : ConstraintId}
    {r : Except SolveError (Option ConstraintId)} (hd : Displacement mark c node s r s')
    (hnode : s.constraintAt? c = some node) (hk : s'.Unmet k) :
    r = .ok (some k) ∨ r = .error (.unsatisfiableRequired k) ∨ s.Unmet k ∧ k ≠ c := by
  cases hd with
  | refused halike =>
    by_cases hkc : k = c
    · exact .inr (.inl (by rw [hkc]))
    · exact .inr (.inr ⟨(Solver.unmet_congr halike.constraintAt).1 hk, hkc⟩)
  | left hreq halike =>
    have hk := (Solver.unmet_congr halike.constraintAt).1 hk
    refine .inr (.inr ⟨hk, ?_⟩)
    -- the constraint itself is not required
    rintro rfl
    obtain ⟨n, hn, _, _, hreq'⟩ := hk
    obtain rfl := Option.some.inj (hnode.symm.trans hn)
    exact hreq hreq'
  | @enforced s₁ s₂ i method x hi hrepaint =>
    have hk : s₂.Unmet k := hk
    rcases hi.unmet ((Solver.unmet_congr hrepaint.constraintAt).1 hk) with hdis | hold
    · exact .inl (congrArg Except.ok hdis)
    · exact .inr (.inr hold)

/-- What a chain of displacements that begins with `c` comes to if no cycle is counted: either it
comes to its end, or a required constraint finds no method that it may use. -/
def Chained (s s' : Solver W T) (c : ConstraintId) : Except SolveError Unit → Prop
  | .ok _ => s'.metrics.faults = s.metrics.faults ∧ ∀ k, s'.Unmet k → s.Unmet k ∧ k ≠ c
  | .error e => ∃ failed, e = .unsatisfiableRequired failed ∧
    s'.metrics.faults = (s.metrics.cycles, s.metrics.unsatisfiable + 1) ∧
    ∀ k, s'.Unmet k → k = failed ∨ s.Unmet k ∧ k ≠ c

/-- A cascade that counts no cycle is a chain of displacements. -/
theorem ensures_displace_chained {remove : ConstraintId → SolveM W T Unit} {fuel steps : Nat}
    {mark : Mark} (hremove : ∀ c, Obeys FaultsLe (remove c)) (h : m.solver.WellFormed)
    (hidle : m.solver.Idle c) :
    Ensures (displace remove fuel mark steps c) m fun r m' =>
      m'.solver.metrics.cycles = m.solver.metrics.cycles → Chained m.solver m'.solver c r := by
  -- while the chain goes on, nothing was counted and only the displaced constraint may be unmet
  refine ensures_displace_of_enforce (J := fun k m₁ => m₁.solver.WellFormed ∧ m₁.solver.Idle k ∧
    m₁.solver.metrics.faults = m.solver.metrics.faults ∧
    ∀ j, m₁.solver.Unmet j → j = k ∨ m.solver.Unmet j ∧ j ≠ c) ?_ ⟨h, hidle, rfl, fun j hj => ?_⟩
  · rintro k m₁ ⟨h₁, hidle₁, hf₁, hunmet₁⟩
    obtain ⟨hcycles₁, hunsat₁⟩ := Prod.mk.inj hf₁
    obtain ⟨node, hnode, hstep⟩ := ensures_enforce_displacement fuel mark hremove h₁ hidle₁
    refine hstep.mono fun r m₂ hd => ?_
    rcases hd with ⟨e, rfl, hlt⟩ | hd
    · exact fun hcycles => by omega
    have hunmet : ∀ j, m₂.solver.Unmet j → r = .ok (some j) ∨
        r = .error (.unsatisfiableRequired j) ∨ m.solver.Unmet j ∧ j ≠ c := by
      intro j hj
      refine (hd.unmet hnode hj).imp_right (.imp_right fun hold => ?_)
      exact (hunmet₁ j hold.1).resolve_left hold.2
    match r, hd.counted h₁ with
    | .error e, ⟨he, hf₂⟩ =>
      subst he
      refine fun _ => ⟨k, rfl, by rw [hf₂, hcycles₁, hunsat₁], fun j hj => ?_⟩
      rcases hunmet j hj with he | he | hold
      · cases he
      · exact .inl (SolveError.unsatisfiableRequired.inj (Except.error.inj he)).symm
      · exact .inr hold
    | .ok none, hf₂ =>
      refine fun _ => ⟨hf₂.trans hf₁, fun j hj => ?_⟩
      rcases hunmet j hj with he | he | hold
      · cases he
      · cases he
      · exact hold
    | .ok (some next), ⟨h₂, hidle₂, hf₂⟩ =>
      refine ⟨h₂, hidle₂, hf₂.trans hf₁, fun j hj => ?_⟩
      rcases hunmet j hj with he | he | hold
      · exact .inl (Option.some.inj (Except.ok.inj he)).symm
      · cases he
      · exact .inr hold
  · by_cases hjc : j = c
    · exact .inl hjc
    · exact .inr ⟨hj, hjc⟩

/-- Adding an idle constraint begins a chain of displacements. -/
theorem ensures_add_chained {fuel : Nat} (h : m.solver.WellFormed) (hidle : m.solver.Idle c) :
    Ensures (add fuel c) m fun r m' =>
      m'.solver.metrics.cycles = m.solver.metrics.cycles → Chained m.solver m'.solver c r := by
  refine ensures_add_of_displace fun fuel => ?_
  have hremove : ∀ k, Obeys (W := W) (T := T) FaultsLe (withdraw (add fuel) fuel k) :=
    withdraw_obeys faultsLe_frame (add_obeys faultsLe_frame fuel) fuel
  exact ensures_displace_chained (m := ⟨_, m.world, m.journal⟩) hremove h.nextPass hidle

/-- Adding an idle constraint without counting anything leaves nothing unmet that was met, and the
constraint itself is met. -/
theorem ensures_add_met {fuel : Nat} (h : m.solver.Sound cells) (hidle : m.solver.Idle c) :
    Ensures (add fuel c) m fun _ m' => m'.solver.Sound cells ∧ m.solver.FaultsLe m'.solver ∧
      (m'.solver.metrics.faults = m.solver.metrics.faults →
        ∀ k, m'.solver.Unmet k → m.solver.Unmet k ∧ k ≠ c) := by
  refine ((add_sound cells fuel m c h hidle).and ((add_obeys faultsLe_frame fuel c m).and
    (ensures_add_chained h.toWellFormed hidle))).mono ?_
  rintro r m' ⟨h', hle, hchained⟩
  refine ⟨h', hle, fun hfaults => ?_⟩
  obtain ⟨hcycles, hunsat⟩ := Prod.mk.inj hfaults
  cases r with
  | ok _ => exact (hchained hcycles).2
  | error e =>
    -- a chain that fails counts an unsatisfiable constraint
    obtain ⟨_, _, hf, _⟩ := hchained hcycles
    have := (Prod.mk.inj hf).2
    omega

/-- Adding constraints again without counting anything leaves nothing unmet that was met. -/
theorem ensures_readd_met {fuel : Nat} {cs : List ConstraintId} {failure : Option SolveError}
    (h : m.solver.Sound cells) :
    Ensures (readd (add fuel) cs failure) m fun _ m' =>
      m'.solver.metrics.faults = m.solver.metrics.faults →
        ∀ k, m'.solver.Unmet k → m.solver.Unmet k := by
  induction cs generalizing m failure with
  | nil => cases failure with
    | none => exact (ensures_pure _).2 fun _ _ hk => hk
    | some e => exact (ensures_throw _).2 fun _ _ hk => hk
  | cons c cs ih =>
    refine .readd_cons (fun _ _ _ _ hk => hk) (fun hidle => ?_) fun _ => ih h
    refine (ensures_add_met h hidle).mono ?_
    rintro _ m₁ ⟨h₁, hle₁, hmet₁⟩ failure _ _
    refine ((ih h₁).and (readd_obeys faultsLe_frame (add_obeys faultsLe_frame fuel) cs failure
      m₁)).mono ?_
    rintro r m' ⟨hmet, hle⟩ hfaults k hk
    -- counts only go up, so neither the first addition nor the rest has counted anything
    obtain ⟨hf₁, hf₂⟩ := hle₁.eq_of_eq hle hfaults
    exact (hmet₁ hf₁ k (hmet hf₂ k hk)).1

/-- A constraint that was switched off leaves the graph. If this counts nothing, nothing is unmet
that was met. -/
theorem ensures_leave_met {s : Solver W T} {fuel : Nat} (h : s.Sound cells)
    (hoff : SwitchedOff s m.solver c node) (hp : m.solver.passes = s.passes) :
    Ensures (if node.isEnforcing then remove fuel c else deregister c) m fun _ m' =>
      m'.solver.metrics.faults = m.solver.metrics.faults →
        ∀ k, m'.solver.Unmet k → s.Unmet k := by
  have hunmet : ∀ {s₁ s₂ : Solver W T} {cs}, s.Vacated cells s₁ s₂ c node cs →
      ∀ k, s₂.Unmet k → s.Unmet k := fun hv k hk =>
    hv.detached.unmet ((Solver.unmet_congr hv.repaints.constraintAt).1 hk)
  refine ensures_leave_cases faultsLe_frame.toForceFrame h hoff hp (fun _ _ _ hv _ _ _ => hunmet hv)
    fun _ m₂ cs hv hle₂ => ?_
  refine ((ensures_readd_met hv.sound).and (readd_obeys faultsLe_frame
    (add_obeys faultsLe_frame fuel) cs none m₂)).mono ?_
  rintro r m' ⟨hmet, hle⟩ hfaults k hk
  exact hunmet hv k (hmet (hle₂.eq_of_eq hle hfaults).2 k hk)

/-- Disabling without counting anything leaves nothing unmet that was met. -/
theorem ensures_disable_met {fuel : Nat} (h : m.solver.Sound cells) :
    Ensures (disable fuel c) m fun _ m' =>
      m'.solver.metrics.faults = m.solver.metrics.faults →
        ∀ k, m'.solver.Unmet k → m.solver.Unmet k := by
  refine ensures_disable_cases (fun _ _ _ _ _ hk => hk) fun node m₁ hoff hp _ hf₁ _ => ?_
  exact (ensures_leave_met h hoff hp).mono fun r m' hmet hfaults => hmet (hfaults.trans hf₁.symm)

/-! ## Taking back an enable -/

/-- Restoring what a rollback left idle, without counting anything, leaves it met. -/
theorem ensures_restore_met {fuel : Nat} {failed : ConstraintId} (h : m.solver.Sound cells) :
    Ensures (restore fuel c failed) m fun r m' => r = .ok () ∧
      (m'.solver.metrics.faults = m.solver.metrics.faults →
        ∀ k, m'.solver.Unmet k → m.solver.Unmet k ∧ (k = failed → failed = c)) := by
  refine ensures_restore_cases (fun hne hidle => ?_) fun hskip => ⟨rfl, fun _ k hk => ⟨hk, ?_⟩⟩
  · refine (ensures_add_met h hidle).mono ?_
    rintro _ m₁ ⟨_, _, hmet⟩ _ _
    exact ⟨rfl, fun hf k hk => ⟨(hmet hf k hk).1, fun he => absurd he (hmet hf k hk).2⟩⟩
  · -- an unmet constraint other than `c` would have been added
    rintro rfl
    by_contra hne
    obtain ⟨n, hn, hen, hidle, _⟩ := hk
    exact hskip hne ⟨n, hn, hen, hidle⟩

/-- Taking back the enabling of `c`, if this counts nothing, leaves nothing unmet that was met, and
neither the constraint that failed. Whatever it counts, `c` is not part of the graph afterwards. -/
theorem ensures_rollBackEnable_met {fuel : Nat} {failed : ConstraintId} (h : m.solver.Sound cells)
    (hnode : m.solver.constraintAt? c = some node) :
    Ensures (rollBackEnable fuel c failed) m fun r m' => r = .ok () ∧ ¬ m'.solver.Enabled c ∧
      (m'.solver.metrics.faults = m.solver.metrics.faults →
        ∀ k, m'.solver.Unmet k → m.solver.Unmet k ∧ k ≠ failed) := by
  refine ensures_rollBackEnable_cases (fun hnone => by cases hnode.symm.trans hnone)
    fun node' m₀ _ hoff hp₀ hf₀ _ => ?_
  refine ((ensures_leave h hoff hp₀).and ((ensures_leave_met h hoff hp₀).and
    ((leave_obeys propagates_frame fuel c node' m₀).and
      (leave_obeys faultsLe_frame fuel c node' m₀)))).mono ?_
  rintro undo m₁ ⟨h₁, hmet₁, hprop₁, hle₁⟩ journal _
  have hgone : ¬ m₁.solver.Enabled c := hoff.not_enabled hprop₁
  refine ((ensures_restore_met (m := ⟨m₁.solver, m₁.world, journal⟩) h₁).and
    ((restore_obeys propagates_frame fuel c failed _).and
      (restore_obeys faultsLe_frame fuel c failed _))).mono ?_
  rintro r m' ⟨⟨hr, hmet⟩, hprop, hle⟩
  refine ⟨hr, fun hon => hgone (hprop.enabled c hon), fun hfaults k hk => ?_⟩
  obtain ⟨hf₁, hf⟩ := hle₁.eq_of_eq hle (hfaults.trans (congrArg Metrics.faults hf₀).symm)
  obtain ⟨hk₁, hfailed⟩ := hmet hf k hk
  refine ⟨hmet₁ hf₁ k hk₁, ?_⟩
  -- if it is the failed constraint it is `c`, which has left the graph
  rintro rfl
  obtain ⟨n, hn, hen, _⟩ := hk₁
  exact hgone (hfailed rfl ▸ ⟨n, hn, hen⟩)

/-- Enabling a constraint without counting a cycle leaves nothing unmet that was met, if at most one
unsatisfiable constraint is counted: the one on whose account the enable is taken back. -/
theorem ensures_enable_met {fuel : Nat} (h : m.solver.Sound cells) :
    Ensures (enable fuel c) m fun _ m' =>
      m'.solver.metrics.cycles = m.solver.metrics.cycles →
      m'.solver.metrics.unsatisfiable ≤ m.solver.metrics.unsatisfiable + 1 →
        ∀ k, m'.solver.Unmet k → m.solver.Unmet k := by
  refine ensures_enable_cases h (fun _ _ _ _ _ hk => hk) fun node m₁ h₁ he _ _ hf₁ _ => ?_
  obtain ⟨hcycles₁, hunsat₁⟩ := Prod.mk.inj hf₁
  -- what the chain has come to, seen from the graph that `c` had not yet entered
  have hunmet : ∀ k, m₁.solver.Unmet k ∧ k ≠ c → m.solver.Unmet k :=
    fun k hk => (he.unmet hk.1).resolve_left hk.2
  refine ensures_settle_cases ((add_sound cells fuel m₁ c h₁ he.idle).and
    ((add_obeys propagates_frame fuel c m₁).and ((add_obeys faultsLe_frame fuel c m₁).and
      (ensures_add_chained h₁.toWellFormed he.idle)))) ?_ ?_ ?_
  · rintro m₂ ⟨_, _, _, hchained⟩ hcycles _ k hk
    exact hunmet k ((hchained (hcycles.trans hcycles₁.symm)).2 k hk)
  · rintro failed m₂ ⟨h₂, hprop, hle₂, hchained⟩
    obtain ⟨n, hn⟩ := Option.isSome_iff_exists.1 ((hprop.constraint_live c).trans he.idle.live)
    refine ((ensures_rollBackEnable_met h₂ hn).and (rollBackEnable_obeys faultsLe_frame fuel
      (fun _ => Solver.faultsLe_of_eq rfl) failed m₂)).mono ?_
    rintro _ m' ⟨⟨rfl, _, hmet⟩, hle⟩ hcycles hunsat k hk
    -- the chain has counted one unsatisfiable constraint, so the rollback has counted nothing
    have hc₁ := hle₂.cycles
    have hc₂ := hle.cycles
    have hu₂ := hle.unsatisfiable
    obtain ⟨failed', hfailed, hf, hchain⟩ := hchained (by omega)
    obtain ⟨hcycles₂, hunsat₂⟩ := Prod.mk.inj hf
    obtain rfl := SolveError.unsatisfiableRequired.inj hfailed
    have hfaults : m'.solver.metrics.faults = m₂.solver.metrics.faults := by
      unfold Metrics.faults
      simp only [Prod.mk.injEq]
      omega
    obtain ⟨hk₂, hne⟩ := hmet hfaults k hk
    exact hunmet k ((hchain k hk₂).resolve_left hne)
  · rintro e m₂ hother ⟨_, _, _, hchained⟩ hcycles _
    obtain ⟨failed, rfl, _⟩ := hchained (hcycles.trans hcycles₁.symm)
    exact absurd rfl (hother failed)

/-! ## Moves -/

/-- No step of enabling counts down. -/
theorem faultsLe_enter (c : ConstraintId) : EnterFrame (W := W) (T := T) c FaultsLe where
  toPassFrame := faultsLe_frame
  onLeave _ := Solver.faultsLe_of_eq rfl
  onChange _ := Solver.faultsLe_of_eq rfl
  onEnter _ := Solver.faultsLe_of_eq rfl

variable {P : Solver W T → ConstraintId → Prop} {fuel : Nat} {m' : Machine W T}

/-- A move does not count down. -/
theorem Move.faultsLe (hmove : Move cells P fuel m m') : m.solver.FaultsLe m'.solver := by
  cases hmove with
  | enable c _ hrun => exact enable_obeys (faultsLe_enter c) fuel m _ m' hrun
  | disable c hrun => exact disable_obeys (faultsLe_enter c).toLeaveFrame fuel m _ m' hrun
  | aside haside _ _ => exact Solver.faultsLe_of_eq haside.faults

/-- A sequence of moves does not count down. -/
theorem Moves.faultsLe (hmoves : Moves cells P fuel m m') : m.solver.FaultsLe m'.solver := by
  induction hmoves with
  | refl => exact FaultsLe.transitive.refl _
  | tail _ hmove ih => exact FaultsLe.transitive.trans ih hmove.faultsLe

/-- A move that counts nothing leaves nothing unmet that was met. -/
theorem Move.met (hmove : Move cells P fuel m m') (h : m.solver.Sound cells)
    (hfaults : m'.solver.metrics.faults = m.solver.metrics.faults) {k : ConstraintId}
    (hk : m'.solver.Unmet k) : m.solver.Unmet k := by
  obtain ⟨hcycles, hunsat⟩ := Prod.mk.inj hfaults
  cases hmove with
  | enable c _ hrun => exact ensures_enable_met h _ m' hrun hcycles (by omega) k hk
  | disable c hrun => exact ensures_disable_met h _ m' hrun hfaults k hk
  | aside haside _ _ => exact haside.unmet.1 hk

/-- Moves that count nothing leave nothing unmet that was met. -/
theorem Moves.met (hmoves : Moves cells P fuel m m') (h : m.solver.Sound cells)
    (hfaults : m'.solver.metrics.faults = m.solver.metrics.faults) {k : ConstraintId}
    (hk : m'.solver.Unmet k) : m.solver.Unmet k := by
  induction hmoves with
  | refl => exact hk
  -- neither the moves before nor the last one has counted anything
  | tail hmoves hmove ih =>
    have hf := Moves.faultsLe hmoves |>.eq_of_eq hmove.faultsLe hfaults
    exact ih hf.1 (hmove.met (Moves.keeps hmoves h).1 hf.2 hk)

end SolveM

/-- A relation between variables that the first one and each of `outputs` can be computed from. -/
def Definition.relation {W T : Type} (strength : Strength) (first : VarId)
    (outputs inputs : List VarId) (f : Compute W T) : Definition W T :=
  let vs := OrderedSet.ofList (first :: outputs ++ inputs)
  have hmentions : ∀ o ∈ OrderedSet.ofList (first :: outputs), o ∈ vs := by
    intro o ho
    rw [OrderedSet.mem_ofList] at ho ⊢
    exact List.mem_append_left inputs ho
  { strength := strength
    volatile := false
    label := none
    methods := (OrderedSet.ofList (first :: outputs)).toList.map fun o =>
      .compute o (vs.erase o).toList f
    nonempty := by
      intro hnil
      rw [List.map_eq_nil_iff] at hnil
      have hmem : first ∈ (OrderedSet.ofList (first :: outputs)).toList :=
        OrderedSet.mem_ofList.2 List.mem_cons_self
      rw [hnil] at hmem
      cases hmem
    outputs_nodup := by
      simpa [Function.comp_def, Method.compute] using (OrderedSet.ofList (first :: outputs)).nodup
    proper := by
      intro m hm
      obtain ⟨o, _, rfl⟩ := List.mem_map.1 hm
      exact ⟨(vs.erase o).nodup, fun ho => (OrderedSet.mem_erase.1 ho).1 rfl⟩
    covers := by
      intro m hm v hv
      obtain ⟨o, _, rfl⟩ := List.mem_map.1 hm
      -- a variable that a method mentions is its output or one of the others
      rw [mentioned, OrderedSet.mem_ofList, List.mem_flatMap] at hv
      obtain ⟨m', hm', hv⟩ := hv
      obtain ⟨o', ho', rfl⟩ := List.mem_map.1 hm'
      have hmem : v ∈ vs := by
        rcases List.mem_cons.1 hv with rfl | hv
        · exact hmentions _ ho'
        · exact (OrderedSet.mem_erase.1 hv).2
      by_cases hvo : v = o
      · exact hvo ▸ List.mem_cons_self
      · exact List.mem_cons_of_mem _ (OrderedSet.mem_erase.2 ⟨hvo, hmem⟩) }

namespace Call

open SolveM (Ensures)

variable {W T : Type} {m : Machine W T} {cells : Prop} {fuel : Nat}

/-- The call counted neither a cycle nor an unsatisfiable constraint, or it set the counters to zero,
or it is an enable that counted just the unsatisfiable constraint on whose account it was taken
back. -/
def Unimpaired (_fuel : Nat) (call : Call W T) (m : Machine W T)
    (_r : Except SolveError (Answer W T)) (m' : Machine W T) : Prop :=
  call = resetMetrics ∨ m'.solver.metrics.faults = m.solver.metrics.faults ∨
    (∃ c, call = enable c) ∧
      m'.solver.metrics.faults = (m.solver.metrics.cycles, m.solver.metrics.unsatisfiable + 1)

/-- Whether a call is unimpaired, as far as the counters tell. -/
def isUnimpaired (call : Call W T) (m m' : Machine W T) : Bool :=
  m'.solver.metrics.faults = m.solver.metrics.faults ||
    match call with
    | enable _ => m'.solver.metrics.faults =
      (m.solver.metrics.cycles, m.solver.metrics.unsatisfiable + 1)
    | _ => false

/-- What the counters tell of a call is so. -/
theorem unimpaired_of_isUnimpaired {call : Call W T} {r : Except SolveError (Answer W T)}
    {m' : Machine W T} (h : call.isUnimpaired m m' = true) : call.Unimpaired fuel m r m' := by
  unfold isUnimpaired at h
  rw [Bool.or_eq_true, decide_eq_true_eq] at h
  refine .inr (h.imp_right fun hfaults => ?_)
  cases call with
  | enable c => exact ⟨⟨c, rfl⟩, of_decide_eq_true hfaults⟩
  | _ => cases hfaults

/-- An unimpaired call leaves nothing unmet that was met. -/
theorem ensures_met {call : Call W T} (h : m.solver.Sound cells)
    (hcareful : call.Careful cells m.solver) :
    Ensures (call.run fuel) m fun r m' => call.Unimpaired fuel m r m' →
      ∀ k, m'.solver.Unmet k → m.solver.Unmet k := by
  by_cases hreset : call = resetMetrics
  · subst hreset
    unfold run SolveM.resetMetrics
    rw [SolveM.ensures_bind, SolveM.ensures_count]
    exact (SolveM.ensures_pure _).2 fun _ k hk => hk
  · have hmoves : Ensures (call.run fuel) m fun _ m' =>
        SolveM.Moves cells (fun _ _ => True) fuel m m' :=
      ensures_moves h hcareful hreset (fun _ _ => trivial) (enablesWhere_true call)
    intro r m' hrun hok k hk
    rcases hok with hok | hfaults | ⟨⟨c, rfl⟩, hfaults⟩
    · exact absurd hok hreset
    · exact (hmoves r m' hrun).met h hfaults hk
    · obtain ⟨hcycles, hunsat⟩ := Prod.mk.inj hfaults
      have henable := ensures_answer (f := fun _ => .done) (SolveM.ensures_enable_met h) r m' hrun
      exact henable hcycles (Nat.le_of_eq hunsat) k hk

end Call

namespace RunWith

variable {W T : Type} {own : Prop} {config : Config} {plans : List (Plan × Nat)} {m : Machine W T}

/-- As long as no call has counted a cycle or an unsatisfiable constraint, but for enables that were
taken back, every required constraint of the graph has a method in force after every call. -/
theorem required_held (h : RunWith Call.Unimpaired own config plans m) {c : ConstraintId}
    {node : Constraint W T} (hnode : m.solver.constraintAt? c = some node)
    (hen : node.enabled = true) (hreq : node.definition.strength = .required) :
    ∃ method ∈ node.definition.methods, node.enforcingMethod? = some method := by
  have hmet : ∀ k, ¬ m.solver.Unmet k := by
    clear hnode hen hreq
    -- by induction on the run: no call leaves a constraint unmet that was met before
    induction h with
    | start w =>
      rintro k ⟨n, hn, _⟩
      simp at hn
    | outside w _ ih => exact ih
    | @call plans m m' r fuel call h hcall hrun hok ih =>
      obtain ⟨hsound, htracked⟩ := h.run.sound
      intro k hk
      exact ih k (Call.ensures_met hsound (Run.careful htracked hcall) r m' hrun hok k hk)
  cases hi : node.enforcing with
  | none => exact absurd ⟨node, hnode, hen, hi, hreq⟩ (hmet c)
  | some i =>
    have hlt := (h.run.sound.1.enforcing hnode hi).2
    refine ⟨node.definition.methods[i], List.getElem_mem hlt, ?_⟩
    rw [Constraint.enforcingMethod?, hi]
    exact List.getElem?_eq_getElem hlt

/-- The calls that the next statement is about: two variables are made equal, each is to be held, one
at a required value, and the other enable is taken back. -/
def heldTwice : List (Call Unit Nat) :=
  [.newVariables [1, 2],
    .constrain (.relation .required ⟨0, 0⟩ [⟨1, 0⟩] [] .first),
    .stay ⟨0, 0⟩ .strong, .edit ⟨0, 0⟩ 5 .required,
    .insert (.edit .required none ⟨1, 0⟩ 7), .enable ⟨3, 0⟩]

/-- The relation has a method in force after it was held from one side, and an enable that would hold
it from the other side was taken back. -/
theorem required_held_twice : ∃ (m : Machine Unit Nat) (node : Constraint Unit Nat),
    Call.runWhile Call.isUnimpaired 9 heldTwice ⟨.empty {}, (), []⟩ = some m ∧
    m.solver.metrics.faults = (0, 1) ∧ m.solver.constraintAt? ⟨0, 0⟩ = some node ∧
    node.enabled = true ∧ node.definition.strength = .required ∧
    ∃ method ∈ node.definition.methods, node.enforcingMethod? = some method := by
  have hany : (Call.runWhile Call.isUnimpaired 9 heldTwice ⟨.empty {}, (), []⟩).any (fun m =>
      m.solver.metrics.faults = (0, 1) ∧ (m.solver.constraintAt? ⟨0, 0⟩).any fun node =>
        node.enabled = true ∧ node.definition.strength = .required) = true := by
    decide +kernel
  simp only [Option.any_eq_true, decide_eq_true_eq] at hany
  obtain ⟨m, hm, hfaults, node, hnode, hen, hreq⟩ := hany
  have hstart : RunWith Call.Unimpaired False {} [] (⟨.empty {}, (), []⟩ : Machine Unit Nat) :=
    .start ()
  obtain ⟨plans, h⟩ := hstart.runWhile Call.unimpaired_of_isUnimpaired (by decide) hm
  exact ⟨m, node, hm, hfaults, hnode, hen, hreq, required_held h hnode hen hreq⟩

/-- Two variables that are held equal by a weak and by a required relation. -/
def weaklyAndRequired : List (Call Unit Nat) :=
  [.newVariables [0, 0],
    .constrain (.relation .weak ⟨1, 0⟩ [⟨0, 0⟩] [] .first),
    .constrain (.relation .required ⟨1, 0⟩ [⟨0, 0⟩] [] .first)]

/-- A write to one of the two variables fails and leaves the required relation without a method in
force: when the write is withdrawn the weak relation is added again, takes the output of the required
one, and the required one finds both variables claimed. -/
theorem required_unmet_after_write : ∃ (m m' : Machine Unit Nat) (node : Constraint Unit Nat),
    Call.runAll 9 weaklyAndRequired ⟨.empty {}, (), []⟩ = some m ∧ (∃ plans, Run True {} plans m) ∧
    SolveM.exec ((Call.write ⟨0, 0⟩ 1).run 9) m =
      some (.error (.unsatisfiableRequired ⟨1, 0⟩), m') ∧
    m'.solver.constraintAt? ⟨1, 0⟩ = some node ∧ node.enabled = true ∧
    node.definition.strength = .required ∧ node.enforcing = none := by
  have hany : (Call.runAll 9 weaklyAndRequired ⟨.empty {}, (), []⟩).any (fun m =>
      (SolveM.exec ((Call.write ⟨0, 0⟩ 1).run 9) m).any fun p =>
        Call.hasFailed (.unsatisfiableRequired ⟨1, 0⟩) p.1 ∧
        (p.2.solver.constraintAt? ⟨1, 0⟩).any fun node => node.enabled = true ∧
          node.definition.strength = .required ∧ node.enforcing = none) = true := by
    decide +kernel
  simp only [Option.any_eq_true, decide_eq_true_eq] at hany
  obtain ⟨m, hm, ⟨r, m'⟩, hwrite, hr, node, hnode, hrest⟩ := hany
  have hstart : Run True {} [] (⟨.empty {}, (), []⟩ : Machine Unit Nat) := .start ()
  obtain ⟨plans, h⟩ := Run.runAll hstart (by decide) hm
  obtain rfl := Call.eq_error_of_hasFailed hr
  exact ⟨m, m', node, hm, ⟨plans, h⟩, hwrite, hnode, hrest⟩

end RunWith

end DeltaBlue
