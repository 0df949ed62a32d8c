import DeltaBlue.Proofs.Blocking

/-!
# Every move keeps a forest tidy

Enforcing a constraint in a pass over a forest finds no cycle. It leaves the graph tidy, or with one
constraint displaced and all else tidy, or it fails because the constraint is required and finds no
method; and the last can happen only to the constraint with which the pass began, since every later one
has lost an output in the pass. So adding a constraint leaves a tidy graph tidy, or fails and changes
nothing. Constraints that are added again after a removal are not required and do not fail, so a
removal succeeds; and an enable that fails is taken back by taking the constraint out of a graph that
is tidy but for it.

The marks that passes draw start again after `2 ^ 64` passes, and up to there all of this holds.
-/

namespace DeltaBlue

open SolveM (Ensures)

namespace Solver

variable {W T : Type}

/-- What enforcing `c` in a pass over a forest comes to. -/
def Chased (cells : Prop) (s s' : Solver W T) (mark : Mark) (c : ConstraintId)
    (todo : List ConstraintId) : Except SolveError (Option ConstraintId) → Prop
  | .error e => e = .unsatisfiableRequired c ∧ s.Unmet c ∧ s.Alike s' ∧
    ∀ v, s.Mentions c v → ¬ s.Claimed mark v
  | .ok none => s'.Tidy todo
  | .ok (some k) => s'.WellFormed ∧ s'.Idle k ∧ s'.Poised cells mark k todo ∧
    ∃ v, s'.Mentions k v ∧ s'.Claimed mark v

/-- What adding `c` to a forest comes to: the graph is tidy, or `c` is required and nothing has
changed. -/
def Added (s s' : Solver W T) (c : ConstraintId) (todo : List ConstraintId) :
    Except SolveError Unit → Prop
  | .ok _ => s'.Tidy todo
  | .error e => e = .unsatisfiableRequired c ∧ s.Unmet c ∧
    (∀ k, s'.constraintAt? k = s.constraintAt? k) ∧ ∀ v, s'.walkAt v = s.walkAt v

end Solver

namespace SolveM

open Solver (Sound Tidy TidyBut Poised)

variable {W T : Type} {m m' : Machine W T} {cells : Prop} {c : ConstraintId} {fuel : Nat}
  {todo : List ConstraintId}

/-! ## Adding -/

/-- Enforcing a constraint in a pass over a forest finds no cycle and comes to one of the cases of
`Solver.Chased`. -/
theorem ensures_enforce_chased {remove : ConstraintId → SolveM W T Unit} {mark : Mark}
    (h : m.solver.WellFormed) (hidle : m.solver.Idle c)
    (hp : m.solver.Poised cells mark c todo) :
    Ensures (enforce remove fuel mark c) m fun r m' =>
      m'.solver.metrics.cycles = m.solver.metrics.cycles ∧
      Solver.Chased cells m.solver m'.solver mark c todo r := by
  obtain ⟨node, hnode, hen, hnone⟩ := hidle
  refine (ensures_enforcement remove fuel mark h hnode hen hnone).mono fun r m' hcase => ?_
  cases hcase with
  | refused hreq halike hheld hfaults =>
    refine ⟨(Prod.mk.inj hfaults).1, rfl, ⟨node, hnode, hen, hnone, hreq⟩, halike, ?_⟩
    rintro v ⟨n, hn, hv⟩
    obtain rfl := Option.some.inj (hnode.symm.trans hn)
    exact (hp.ready hnode).unclaimed h hnode hheld hreq v hv
  | left hreq halike hheld hfaults =>
    exact ⟨(Prod.mk.inj hfaults).1, hp.left h hnode hreq hheld halike⟩
  | @enforced m₁ m₂ i method x hi hpasses hf₁ hsweep =>
    have hr := sweep_repaints mark fuel _ m₁ _ m₂ hsweep
    have h₂ := (h.installed hi).repaints hr
    have hfaults := (sweep_obeys sameFaults_frame mark fuel _ m₁ _ m₂ hsweep).trans hf₁
    obtain ⟨hw, hswept⟩ := ensures_sweep_installed h hi hp.settled _ m₂ hsweep
    have hrest₂ := hp.toInPass.swept hi h hpasses hw hswept
    refine ⟨(Prod.mk.inj hfaults).1, ?_⟩
    cases hdis : x.determinedBy with
    | none =>
      -- nothing is displaced, and the constraint itself has a method now
      have hnot : ¬ m₂.solver.Idle c := by
        rintro ⟨n, hn, _, hidle⟩
        exact Solver.not_determines hn hidle _ (hr.determines.2 hi.determines)
      have hbut : m₂.solver.TidyBut c todo := by
        refine hp.tidyBut h hi hr hrest₂ fun j hj => ?_
        rw [hdis] at hj
        cases hj
      exact (hbut.marked method.output).tidy hnot
    | some k =>
      obtain ⟨n', hn', hidle⟩ := hi.displaced_idle h hdis
      have hmentions := hi.displaced_mentions h hdis
      refine ⟨h₂.marked method.output mark, ⟨n', (hr.constraintAt k).trans hn', hidle⟩,
        hp.displaced h hi hr hrest₂ hpasses hdis, method.output, ?_,
        (hp.forest.claimed_iff hp.toInPass h hi hdis hmentions hr).2 rfl⟩
      obtain ⟨n₁, hn₁, hmem⟩ := hmentions
      exact ⟨n₁, (hr.constraintAt k).trans hn₁, hmem⟩
  | @cycle m₁ m₂ _ i method x closing a _ hi _ _ hsweep _ =>
    -- the sweep would have come back to something claimed
    obtain ⟨_, _, hclaimed, hbelow, _⟩ := ensures_sweep_installed h hi hp.settled _ m₂ hsweep
    obtain ⟨k, hk, o, ho, hreach⟩ := hbelow
    obtain rfl := OrderedSet.mem_singleton.1 hk
    obtain rfl := ho.unique hi.determines
    exact absurd hclaimed (hp.forest.not_claimed_of_reaches hp.toInPass h hi hreach)

/-- A chain of displacements over a forest finds no cycle and comes to one of the cases of
`Solver.Added`. -/
theorem ensures_displace_added {remove : ConstraintId → SolveM W T Unit} {mark : Mark}
    {steps : Nat} (h : m.solver.WellFormed) (hidle : m.solver.Idle c)
    (hp : m.solver.Poised cells mark c todo) :
    Ensures (displace remove fuel mark steps c) m fun r m' =>
      m'.solver.metrics.cycles = m.solver.metrics.cycles ∧
      Solver.Added m.solver m'.solver c todo r := by
  -- a later constraint of the chain has lost an output in the pass, which is claimed
  refine ensures_displace_of_enforce (J := fun k m₁ => m₁.solver.WellFormed ∧ m₁.solver.Idle k ∧
    m₁.solver.Poised cells mark k todo ∧
    m₁.solver.metrics.cycles = m.solver.metrics.cycles ∧
    (k = c ∧ m₁ = m ∨ ∃ v, m₁.solver.Mentions k v ∧ m₁.solver.Claimed mark v)) ?_
    ⟨h, hidle, hp, rfl, .inl ⟨rfl, rfl⟩⟩
  rintro k m₁ ⟨h₁, hidle₁, hp₁, hcycles₁, hfirst⟩
  refine (ensures_enforce_chased h₁ hidle₁ hp₁).mono ?_
  rintro r m₂ ⟨hcycles₂, hchased⟩
  have hcycles := hcycles₂.trans hcycles₁
  match r, hchased with
  | .error e, ⟨he, hunmet, halike, hfree⟩ =>
    rcases hfirst with ⟨rfl, rfl⟩ | ⟨v, hv, hclaimed⟩
    · exact ⟨hcycles, he, hunmet, halike.constraintAt, halike.walkAt⟩
    · -- a later constraint has a claimed variable, and one that fails has none
      exact absurd hclaimed (hfree v hv)
  | .ok none, htidy => exact ⟨hcycles, htidy⟩
  | .ok (some next), ⟨h₂, hidle₂, hp₂, hclaimed⟩ =>
    exact ⟨h₂, hidle₂, hp₂, hcycles, .inr hclaimed⟩

/-- Adding an idle constraint to a graph that is tidy but for it leaves the graph tidy, or fails and
changes nothing. -/
theorem ensures_add_added (h : m.solver.Sound cells) (ht : m.solver.TidyBut c todo)
    (hidle : m.solver.Idle c) :
    Ensures (add fuel c) m fun r m' => m'.solver.passes < 2 ^ 64 →
      m'.solver.metrics.cycles = m.solver.metrics.cycles ∧
      Solver.Added m.solver m'.solver c todo r := by
  refine ensures_add_of_displace fun fuel => ?_
  by_cases hlt : m.solver.passes + 1 < 2 ^ 64
  · -- nothing is claimed yet
    have hp : ({ m.solver with passes := m.solver.passes + 1 } : Solver W T).Poised cells
        (.ofPass (m.solver.passes + 1)) c todo :=
      { toInPass := h.inPass hlt c
        toTidyBut := ht.congr (fun _ => rfl) fun _ => rfl
        ready := fun _ u _ hclaimed => absurd hclaimed (h.unclaimed hlt u) }
    exact (ensures_displace_added
      (m := ⟨{ m.solver with passes := m.solver.passes + 1 }, m.world, m.journal⟩)
      h.toWellFormed.nextPass hidle hp).mono fun _ _ hadded _ => hadded
  · -- the marks start again
    refine (displace_obeys propagates_frame (fun k => withdraw_obeys propagates_frame
      (add_obeys propagates_frame fuel) fuel k) fuel _ fuel c _).mono fun r m' hprop hlt' => ?_
    exact absurd (Nat.lt_of_le_of_lt hprop.passes hlt') hlt

/-! ## Removing -/

/-- Adding the constraints of a list that may be idle without being blocked succeeds and leaves every
idle constraint blocked. -/
theorem ensures_readd_tidy {cs : List ConstraintId} (h : m.solver.Sound cells)
    (ht : m.solver.Tidy cs) (hlive : ∀ k ∈ cs, (m.solver.constraintAt? k).isSome) :
    Ensures (readd (add fuel) cs none) m fun r m' => m'.solver.passes < 2 ^ 64 →
      r = .ok () ∧ m'.solver.Tidy [] ∧
      m'.solver.metrics.cycles = m.solver.metrics.cycles := by
  induction cs generalizing m with
  | nil => exact (ensures_pure _).2 fun _ => ⟨rfl, ht, rfl⟩
  | cons c cs ih =>
    have hlive' : ∀ k ∈ cs, (m.solver.constraintAt? k).isSome :=
      fun k hk => hlive k (List.mem_cons_of_mem c hk)
    refine .readd_cons (fun hnone => ?_) (fun hidle => ?_)
      fun hnot => ih h (ht.but.tidy hnot) hlive'
    · have hsome := hlive c List.mem_cons_self
      rw [hnone] at hsome
      cases hsome
    refine ((add_sound cells fuel m c h hidle).and ((add_obeys propagates_frame fuel c m).and
      (ensures_add_added h ht.but hidle))).mono ?_
    rintro r₁ m₁ ⟨h₁, hprop₁, hadded⟩ failure hfailure _ r m' hrun hlt
    have hlt₁ : m₁.solver.passes < 2 ^ 64 := Nat.lt_of_le_of_lt
      (readd_obeys propagates_frame (add_obeys propagates_frame fuel) cs _ m₁ _ _ hrun).passes hlt
    cases r₁ with
    | error e =>
      -- it would be required, and then it would not be idle
      exact absurd (hadded hlt₁).2.2.1 (ht.met c)
    | ok _ =>
      obtain rfl := hfailure rfl
      obtain ⟨hcycles₁, ht₁⟩ := hadded hlt₁
      obtain ⟨hok, ht', hcycles⟩ := ih h₁ ht₁
        (fun k hk => (hprop₁.constraint_live k).trans (hlive' k hk)) r m' hrun hlt
      exact ⟨hok, ht', hcycles.trans hcycles₁⟩

/-- Installing and withdrawing count no cycle. -/
theorem sameCycles_frame : ForceFrame (W := W) (T := T)
    fun s s' => s'.metrics.cycles = s.metrics.cycles where
  refl _ := rfl
  trans h h' := h'.trans h
  onPaint _ _ _ := rfl
  onWork hf s := (Prod.mk.inj (hf s.metrics)).1
  onVariable _ _ _ := rfl
  onForce _ _ _ _ := rfl
  onUnsatisfied _ := rfl

/-- A constraint that was switched off leaves a graph that is tidy but for it, and the graph is tidy
then. -/
theorem ensures_leave_tidy {s : Solver W T} {node : Constraint W T} (h : s.Sound cells)
    (ht : s.TidyBut c []) (hoff : SwitchedOff s m.solver c node)
    (hp : m.solver.passes = s.passes) :
    Ensures (if node.isEnforcing then remove fuel c else deregister c) m fun r m' =>
      m'.solver.passes < 2 ^ 64 → r = .ok () ∧ m'.solver.Tidy [] ∧
        m'.solver.metrics.cycles = m.solver.metrics.cycles := by
  refine ensures_leave_cases sameCycles_frame h hoff hp
    (fun _ _ _ _ _ hnot hlt => absurd hlt hnot) fun _ m₂ cs hv hcycles₂ r m' hrun hlt => ?_
  have hlt₂ : m₂.solver.passes < 2 ^ 64 := Nat.lt_of_le_of_lt
    (readd_obeys propagates_frame (add_obeys propagates_frame fuel) cs none m₂ _ _ hrun).passes hlt
  have ht₂ := ht.vacated h hv hlt₂
  obtain ⟨hok, ht', hcycles⟩ := ensures_readd_tidy hv.sound ht₂ hv.live r m' hrun hlt
  exact ⟨hok, ht', hcycles.trans hcycles₂⟩

/-! ## Enabling and disabling -/

/-- An enable is taken back by taking the constraint out of a graph that is tidy but for it. -/
theorem ensures_rollBackEnable_tidy {node : Constraint W T} (h : m.solver.Sound cells)
    (ht : m.solver.TidyBut c []) (hnode : m.solver.constraintAt? c = some node) :
    Ensures (rollBackEnable fuel c c) m fun r m' => r = .ok () ∧ (m'.solver.passes < 2 ^ 64 →
      m'.solver.Tidy [] ∧ m'.solver.metrics.cycles = m.solver.metrics.cycles) := by
  refine ensures_rollBackEnable_cases (fun hnone => by cases hnode.symm.trans hnone)
    fun node' m₀ _ hoff hp hmetrics _ => ?_
  refine (ensures_leave_tidy h ht hoff hp).mono fun undo m₁ htidy journal _ => ?_
  refine ensures_restore_self.mono ?_
  rintro r m' ⟨hr, rfl⟩
  exact ⟨hr, fun hlt => (htidy hlt).2.imp_right (·.trans (congrArg Metrics.cycles hmetrics))⟩

/-- Enabling a constraint leaves a tidy graph tidy if it is a forest with the constraint, and fails
only if the constraint itself finds no method. -/
theorem ensures_enable_tidy (h : m.solver.Sound cells) (ht : m.solver.Tidy [])
    (hforest : m.solver.ForestWith c) :
    Ensures (enable fuel c) m fun r m' => m'.solver.passes < 2 ^ 64 →
      m'.solver.Tidy [] ∧ m'.solver.metrics.cycles = m.solver.metrics.cycles ∧
      ((m.solver.constraintAt? c).isSome → ∀ e, r = .error e → e = .unsatisfiableRequired c) := by
  refine ensures_enable_cases h (fun r hr _ => ⟨ht, rfl, fun hsome e he => ?_⟩)
    fun node m₁ h₁ he _ _ hf₁ _ => ?_
  · rcases hr with rfl | hnone
    · cases he
    · rw [hnone] at hsome
      cases hsome
  have ht₁ := ht.entered he hforest
  have hcycles₁ := (Prod.mk.inj hf₁).1
  refine ensures_settle_cases ((add_sound cells fuel m₁ c h₁ he.idle).and
    (ensures_add_added h₁ ht₁ he.idle)) ?_ ?_ ?_
  · rintro m₂ ⟨_, hadded⟩ hlt
    obtain ⟨hcycles₂, ht₂⟩ := hadded hlt
    exact ⟨ht₂, hcycles₂.trans hcycles₁, fun _ e he => by cases he⟩
  · rintro failed m₂ ⟨h₂, hadded⟩
    by_cases hlt₂ : m₂.solver.passes < 2 ^ 64
    · -- it is the constraint itself that has failed, and nothing has changed
      obtain ⟨hcycles₂, he₂, _, hsame, hwalk⟩ := hadded hlt₂
      obtain rfl := SolveError.unsatisfiableRequired.inj he₂
      have hc : m₂.solver.constraintAt? failed =
          some { node with enabled := true, enforcing := none } :=
        (hsame failed).trans he.reset.constraintAt_self
      refine (ensures_rollBackEnable_tidy h₂ (ht₁.congr hsame hwalk) hc).mono ?_
      rintro _ m' ⟨rfl, htidy⟩ hlt
      obtain ⟨ht', hcycles⟩ := htidy hlt
      exact ⟨ht', hcycles.trans (hcycles₂.trans hcycles₁),
        fun _ e he => (Except.error.inj he).symm⟩
    · -- the marks started again before the rollback, so they have in the end
      refine (rollBackEnable_obeys propagates_frame fuel (Solver.propagates_switchOff c) failed
        m₂).mono fun r m' hprop hlt => ?_
      exact absurd (Nat.lt_of_le_of_lt hprop.passes hlt) hlt₂
  · exact fun e m₂ hother ⟨_, hadded⟩ hlt => absurd (hadded hlt).2.1 (hother c)

/-- Disabling a constraint leaves a tidy graph tidy, and succeeds if the constraint exists. -/
theorem ensures_disable_tidy (h : m.solver.Sound cells) (ht : m.solver.Tidy []) :
    Ensures (disable fuel c) m fun r m' => m'.solver.passes < 2 ^ 64 →
      m'.solver.Tidy [] ∧ m'.solver.metrics.cycles = m.solver.metrics.cycles ∧
      ((m.solver.constraintAt? c).isSome → r = .ok ()) := by
  refine ensures_disable_cases (fun r hr _ _ => ⟨ht, rfl, fun hsome => ?_⟩)
    fun node m₁ hoff hp _ hf₁ _ => ?_
  · rcases hr with rfl | hnone
    · rfl
    · rw [hnone] at hsome
      cases hsome
  have hbut : m.solver.TidyBut c [] :=
    ⟨ht.forest, fun k hk => absurd hk (ht.met k), fun k hk => .inr (ht.blocked k hk)⟩
  refine (ensures_leave_tidy h hbut hoff hp).mono fun r m' htidy hlt => ?_
  obtain ⟨hok, ht', hcycles⟩ := htidy hlt
  exact ⟨ht', hcycles.trans (Prod.mk.inj hf₁).1, fun _ => hok⟩

/-! ## Moves -/

/-- A move leaves a tidy graph tidy and finds no cycle. -/
theorem Move.tidy (hmove : Move cells Solver.ForestWith fuel m m') (h : m.solver.Sound cells)
    (ht : m.solver.Tidy []) (hlt : m'.solver.passes < 2 ^ 64) :
    m'.solver.Tidy [] ∧ m'.solver.metrics.cycles = m.solver.metrics.cycles := by
  cases hmove with
  | enable c hP hrun =>
    obtain ⟨ht', hcycles, _⟩ := ensures_enable_tidy h ht hP _ m' hrun hlt
    exact ⟨ht', hcycles⟩
  | disable c hrun =>
    obtain ⟨ht', hcycles, _⟩ := ensures_disable_tidy h ht _ m' hrun hlt
    exact ⟨ht', hcycles⟩
  | aside haside _ _ => exact ⟨ht.aside haside, (Prod.mk.inj haside.faults).1⟩

/-- Moves leave a tidy graph tidy and find no cycle. -/
theorem Moves.tidy (hmoves : Moves cells Solver.ForestWith fuel m m') (h : m.solver.Sound cells)
    (ht : m.solver.Tidy []) (hlt : m'.solver.passes < 2 ^ 64) :
    m'.solver.Tidy [] ∧ m'.solver.metrics.cycles = m.solver.metrics.cycles := by
  induction hmoves with
  | refl => exact ⟨ht, rfl⟩
  | tail hmoves hmove ih =>
    have h₁ := (Moves.keeps hmoves h).1
    obtain ⟨ht₁, hcycles₁⟩ := ih (Nat.lt_of_le_of_lt (hmove.keeps h₁).2.passes hlt)
    obtain ⟨ht₂, hcycles₂⟩ := hmove.tidy h₁ ht₁ hlt
    exact ⟨ht₂, hcycles₂.trans hcycles₁⟩

end SolveM

end DeltaBlue
