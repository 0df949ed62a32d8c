import DeltaBlue.Proofs.Candor

/-!
# Properties that last

An operation puts a graph through few kinds of steps: constraints are recalculated, a method is put in
force, a variable is claimed, a constraint is taken out of the graph. A property of machines that every
step keeps (`Machine.Lasts`) is kept by every operation, whatever the operation comes to. Most of these
properties are about the solver alone; the deeds that the steps do are given for those that are not. Some
properties do not outlive it that a constraint is taken out, which happens only to break a cycle. These
are kept by every operation that succeeds.
-/

namespace DeltaBlue

namespace Machine

open SolveM (Ensures recalculate)

variable {W T : Type}

/-- Every step of a pass with a mark keeps the property, or, if it may be `lost`, every step but that
of taking a constraint out of the graph. -/
structure Lasts (I : Machine W T → Prop) (lost : Prop) (mark : Mark) : Prop where
  /-- Nothing but counters is changed, and no deed is done. -/
  onAlike : ∀ {m m' : Machine W T}, (∀ c, m'.solver.constraintAt? c = m.solver.constraintAt? c) →
    (∀ v, m'.solver.variableAt? v = m.solver.variableAt? v) → m.NoDeed m' → I m → I m'
  /-- A constraint is recalculated. -/
  onRecalculate : ∀ {m : Machine W T} c, m.solver.WellFormed → I m →
    Ensures (recalculate c) m fun _ m' => I m'
  /-- A method is put in force. -/
  onInstall : ∀ {m m' : Machine W T} {c node i method x}, m.solver.WellFormed →
    m.solver.Installed m'.solver mark c node i method x →
    m'.deeds = .enforces c method.output :: m.deeds → I m → I m'
  /-- A variable is claimed. -/
  onClaim : ∀ {m : Machine W T} v, I m →
    I { m with solver := m.solver.modifyVariable v fun x => { x with mark := mark } }
  /-- A constraint is taken out, and no deed is done. -/
  onDetach : ¬ lost → ∀ {m m' : Machine W T} {c node}, m.solver.WellFormed →
    m.solver.Detached m'.solver c node → m.NoDeed m' → I m → I m'

/-- The records agree and the property holds, or it is lost together with the operation. -/
def Kept {α : Type} (I : Machine W T → Prop) (lost : Prop) (r : Except SolveError α)
    (m : Machine W T) : Prop :=
  m.solver.WellFormed ∧ I m ∨ lost ∧ ∃ e, r = .error e

variable {I : Machine W T → Prop} {lost : Prop} {m : Machine W T}

/-- An operation that succeeds has lost nothing. -/
theorem Kept.of_ok {α : Type} {a : α} (h : Kept I lost (.ok a) m) : m.solver.WellFormed ∧ I m :=
  h.resolve_right fun ⟨_, _, he⟩ => by cases he

/-- A property that may not be lost is kept by failures as well. -/
theorem Kept.of_not_lost {α : Type} {r : Except SolveError α} (h : Kept I lost r m)
    (hlost : ¬ lost) : m.solver.WellFormed ∧ I m :=
  h.resolve_right fun hl => hlost hl.1

end Machine

namespace SolveM

open Solver (Sound)
open Machine (Lasts Kept)

variable {W T : Type} {m : Machine W T} {I : Machine W T → Prop} {lost : Prop} {mark : Mark}
  {c : ConstraintId} {node : Constraint W T} {fuel : Nat}

/-! ## Walks -/

/-- A property that a recalculation keeps in a well-formed graph is kept together with this. -/
theorem recalculate_preserves (hI : ∀ {m : Machine W T} c, m.solver.WellFormed → I m →
    Ensures (recalculate c) m fun _ m' => I m') (c : ConstraintId) :
    Preserves (fun m => m.solver.WellFormed ∧ I m) (recalculate c) := by
  rintro m ⟨h, hs⟩
  refine ((recalculate_repaints c m).and (hI c h hs)).mono ?_
  rintro r m' ⟨hr, hs'⟩
  exact ⟨h.repaints hr, hs'⟩

/-! ## Adding and removing -/

/-- Adding an idle constraint keeps the property. -/
def AddsLasting (I : Machine W T → Prop) (lost : Prop) (add : ConstraintId → SolveM W T Unit) :
    Prop :=
  ∀ m c, m.solver.WellFormed → I m → m.solver.Idle c → Ensures (add c) m (Kept I lost)

/-- Removing a constraint that was switched off keeps the property, if detaching it does. -/
def RemovesLasting (I : Machine W T → Prop) (lost : Prop)
    (remove : ConstraintId → SolveM W T Unit) : Prop :=
  ∀ m s c node, s.WellFormed → SwitchedOff s m.solver c node →
    (∀ m', s.Detached m'.solver c node → m.NoDeed m' → I m') → Ensures (remove c) m (Kept I lost)

section

variable {add : ConstraintId → SolveM W T Unit} (hadd : AddsLasting I lost add)
include hadd

/-- Adding the constraints of a list again keeps the property. -/
theorem ensures_readd_lasts {cs : List ConstraintId} {failure : Option SolveError}
    (h : m.solver.WellFormed) (hs : I m) : Ensures (readd add cs failure) m (Kept I lost) := by
  induction cs generalizing m failure with
  | nil => cases failure with
    | none => exact (ensures_pure _).2 (.inl ⟨h, hs⟩)
    | some e => exact (ensures_throw _).2 (.inl ⟨h, hs⟩)
  | cons c cs ih =>
    refine .readd_cons (fun _ _ => .inl ⟨h, hs⟩) (fun hidle => ?_) fun _ => ih h hs
    refine (hadd m c h hs hidle).mono fun r m₁ hkept failure' _ hfailed => ?_
    rcases hkept with ⟨h₁, hs₁⟩ | ⟨hlost, e, rfl⟩
    · exact ih h₁ hs₁
    · -- the failure is reported in the end, whatever becomes of the rest of the list
      cases failure' with
      | none => exact absurd rfl (hfailed e rfl)
      | some e' => exact (readd_fails add cs e' m₁).mono fun r m' he => .inr ⟨hlost, he⟩

/-- Removing a constraint keeps the property, if adding what it leaves stranded does. -/
theorem ensures_withdraw_lasts (hI : Lasts I lost mark) (fuel : Nat) :
    RemovesLasting I lost (withdraw add fuel) := by
  intro m s c node h hoff hdetach
  rw [withdraw_eq, ensures_bind]
  refine ((ensures_detach h.toGrounded hoff).and (detach_abstains c m)).mono ?_
  rintro _ m₁ ⟨⟨rfl, hd, _⟩, hdeeds⟩
  simp only
  have h₁ := h.detached hd
  have hs₁ := hdetach m₁ hd hdeeds
  unfold mend
  -- without an output nothing was vacated, and there is nothing to mend
  cases node.output? with
  | none => exact (ensures_pure _).2 (.inl ⟨h₁, hs₁⟩)
  | some a =>
    simp only [ensures_bind, ensures_ask]
    refine (strandedFrom_preserves (recalculate_preserves hI.onRecalculate) fuel _ _ m₁ ⟨h₁, hs₁⟩).mono ?_
    rintro r m₂ ⟨h₂, hs₂⟩
    cases r with
    | ok found => exact ensures_readd_lasts hadd h₂ hs₂
    | error e => exact .inl ⟨h₂, hs₂⟩

end

section

variable {remove : ConstraintId → SolveM W T Unit} (hI : Lasts I lost mark)
  (hremove : ¬ lost → RemovesLasting I lost remove)
include hI hremove

/-- Breaking a cycle fails, and keeps the property unless it may be lost. -/
theorem ensures_breakCycle_lasts {closing : ConstraintId} {claimed : VarId}
    (h : m.solver.WellFormed) (hs : I m) :
    Ensures (breakCycle remove closing claimed) m fun r m' =>
      Kept I lost r m' ∧ ∃ e, r = .error e := by
  have hfails := breakCycle_fails remove closing claimed
  -- where the property may be lost, the failure alone is enough
  by_cases hlost : lost
  · exact (hfails m).mono fun r m' he => ⟨.inr ⟨hlost, he⟩, he⟩
  refine Ensures.and ?_ (hfails m)
  rw [breakCycle_eq, ensures_bind]
  refine ((ensures_expel closing claimed).and (expel_abstains closing claimed m)).mono ?_
  rintro _ m₁ ⟨⟨_, ⟨e, rfl⟩, halike⟩ | ⟨n, _, rfl, hoff, _⟩, hdeeds⟩
  · exact .inl ⟨h.repaints halike.repaints,
      hI.onAlike halike.constraintAt halike.variableAt hdeeds hs⟩
  · simp only
    rw [ensures_bind]
    refine (hremove hlost m₁ m.solver closing n h hoff fun m' hd hnone =>
      hI.onDetach hlost h hd (hdeeds.trans hnone) hs).mono fun r m' hkept => ?_
    have hboth := hkept.of_not_lost hlost
    cases r with
    | ok _ => exact (ensures_throw _).2 (.inl hboth)
    | error _ => exact .inl hboth

/-- Enforcing a constraint keeps the property, and a constraint that was displaced is idle then. -/
theorem ensures_enforce_lasts (h : m.solver.WellFormed) (hs : I m) (hidle : m.solver.Idle c) :
    Ensures (enforce remove fuel mark c) m fun r m' => Kept I lost r m' ∧
      ∀ k, r = .ok (some k) → m'.solver.Idle k := by
  obtain ⟨node, hnode, hen, hnone⟩ := hidle
  refine (ensures_enforcement remove fuel mark h hnode hen hnone).mono fun r m' hcase => ?_
  have halike : m.solver.Alike m'.solver → m.NoDeed m' → m'.solver.WellFormed ∧ I m' :=
    fun ha hdeeds => ⟨h.repaints ha.repaints, hI.onAlike ha.constraintAt ha.variableAt hdeeds hs⟩
  cases hcase with
  | refused _ ha _ _ hdeeds => exact ⟨.inl (halike ha hdeeds), nofun⟩
  | left _ ha _ _ hdeeds => exact ⟨.inl (halike ha hdeeds), nofun⟩
  | @enforced m₁ m₂ i method x hi _ _ hsweep hdeeds =>
    obtain ⟨h₂, hs₂⟩ := sweep_preserves (recalculate_preserves hI.onRecalculate) mark fuel _ m₁
      ⟨h.installed hi, hI.onInstall h hi hdeeds hs⟩ _ m₂ hsweep
    refine ⟨.inl ⟨h₂.marked _ _, hI.onClaim _ hs₂⟩, fun k hk => ?_⟩
    obtain ⟨n, hn, hidle⟩ := hi.displaced_idle h (Except.ok.inj hk)
    exact ⟨n, ((sweep_repaints mark fuel _ m₁ _ m₂ hsweep).constraintAt k).trans hn, hidle⟩
  | @cycle m₁ m₂ _ i method x closing a _ hi _ _ hsweep hbreak hdeeds =>
    obtain ⟨h₂, hs₂⟩ := sweep_preserves (recalculate_preserves hI.onRecalculate) mark fuel _ m₁
      ⟨h.installed hi, hI.onInstall h hi hdeeds hs⟩ _ m₂ hsweep
    obtain ⟨hkept, e, rfl⟩ := ensures_breakCycle_lasts hI hremove h₂ hs₂ r m' hbreak
    exact ⟨hkept, nofun⟩

/-- A chain of displacements keeps the property. -/
theorem ensures_displace_lasts {steps : Nat} (h : m.solver.WellFormed) (hs : I m)
    (hidle : m.solver.Idle c) :
    Ensures (displace remove fuel mark steps c) m (Kept I lost) := by
  refine ensures_displace_of_enforce (J := fun c m => (m.solver.WellFormed ∧ I m) ∧
    m.solver.Idle c) ?_ ⟨⟨h, hs⟩, hidle⟩
  rintro c m ⟨⟨h, hs⟩, hidle⟩
  refine (ensures_enforce_lasts hI hremove h hs hidle).mono ?_
  rintro r m' ⟨hkept, hnext⟩
  match r, hkept, hnext with
  -- what the last constraint of the chain comes to is what the chain comes to
  | .error e, hkept, _ => exact hkept.imp_right fun ⟨hlost, _⟩ => ⟨hlost, e, rfl⟩
  | .ok none, hkept, _ => exact .inl hkept.of_ok
  | .ok (some k), hkept, hnext => exact ⟨hkept.of_ok, hnext k rfl⟩

end

variable (hI : ∀ mark, Lasts I lost mark)
include hI

/-- Adding a constraint keeps the property, with any fuel. -/
theorem add_lasts (fuel : Nat) : AddsLasting I lost (add (W := W) (T := T) fuel) := by
  -- with less fuel, adding is what removing calls to put the stranded constraints back
  induction fuel with
  | zero => exact fun _ _ _ _ _ => ensures_unfinished
  | succ fuel ih =>
    intro m c h hs hidle
    unfold add nextMark
    simp only [ensures_bind, ensures_update, ensures_ask]
    refine ensures_displace_lasts (hI _)
      (fun _ => ensures_withdraw_lasts ih (hI (.ofPass (m.solver.passes + 1))) fuel) ?_ ?_ ?_
    · exact h.nextPass
    · exact (hI (.ofPass 0)).onAlike (m := m) (fun _ => rfl) (fun _ => rfl) ⟨rfl, rfl⟩ hs
    · exact hidle

/-- A constraint that was switched off leaves the graph, and the property is kept, if detaching
keeps it. -/
theorem leave_lasts {s : Solver W T} (h : s.WellFormed) (hoff : SwitchedOff s m.solver c node)
    (hdetach : ∀ m', s.Detached m'.solver c node → m.NoDeed m' → I m') :
    Ensures (if node.isEnforcing then remove fuel c else deregister c) m (Kept I lost) := by
  split
  · exact ensures_withdraw_lasts (add_lasts hI fuel) (hI (.ofPass 0)) fuel m s c node h hoff hdetach
  · next hidle =>
    rw [Constraint.isEnforcing, Option.not_isSome_iff_eq_none] at hidle
    refine ((ensures_deregister hoff hidle).and (deregister_abstains c m)).mono ?_
    rintro _ m₁ ⟨⟨_, hd, _⟩, hdeeds⟩
    exact .inl ⟨h.detached hd, hdetach m₁ hd hdeeds⟩

/-! ## Enabling and disabling -/

/-- Disabling a constraint keeps the property, if detaching it does. -/
theorem ensures_disable_lasts (h : m.solver.WellFormed) (hs : I m)
    (hdetach : ∀ node m', m.solver.Detached m'.solver c node → m.NoDeed m' → I m') :
    Ensures (disable fuel c) m (Kept I lost) :=
  ensures_disable_cases (fun _ _ _ => .inl ⟨h, hs⟩) fun node _ hoff _ _ _ hdeeds =>
    leave_lasts hI h hoff fun m' hd hnone => hdetach node m' hd (hdeeds.trans hnone)

/-- Rolling back keeps a property that may not be lost. -/
theorem ensures_rollBackEnable_lasts {failed : ConstraintId} (hlost : ¬ lost)
    (h : m.solver.WellFormed) (hs : I m) :
    Ensures (rollBackEnable fuel c failed) m fun _ m' => m'.solver.WellFormed ∧ I m' := by
  have hnote : ∀ {m m' : Machine W T}, m.NoDeed m' → m'.solver = m.solver → I m → I m' :=
    fun hdeeds he => (hI (.ofPass 0)).onAlike (fun _ => by rw [he]) (fun _ => by rw [he]) hdeeds
  refine ensures_rollBackEnable_cases (fun _ _ hdeeds => ⟨h, hnote hdeeds rfl hs⟩)
    fun node m₁ _ hoff _ _ hdeeds => ?_
  refine (leave_lasts hI h hoff fun m' hd hnone => (hI (.ofPass 0)).onDetach hlost h hd
    (hdeeds.trans hnone) hs).mono fun _ m₂ hkept journal hdeeds₂ => ?_
  obtain ⟨h₂, hs₂⟩ := hkept.of_not_lost hlost
  have hs₂ := hnote hdeeds₂ rfl hs₂
  refine ensures_restore_cases (fun _ hidle => ?_) fun _ => ⟨h₂, hs₂⟩
  refine (add_lasts hI fuel ⟨m₂.solver, m₂.world, journal⟩ failed h₂ hs₂ hidle).mono
    fun _ m₃ hkept _ hdeeds₃ => ?_
  obtain ⟨h₃, hs₃⟩ := hkept.of_not_lost hlost
  exact ⟨h₃, hnote hdeeds₃ rfl hs₃⟩

/-- Enabling a constraint keeps the property, if entering it does. -/
theorem ensures_enable_lasts {cells : Prop} (h : m.solver.Sound cells) (hs : I m)
    (henter : ∀ node m', m.solver.Entered m'.solver c node → m.NoDeed m' → I m') :
    Ensures (enable fuel c) m (Kept I lost) := by
  refine ensures_enable_cases h (fun _ _ => .inl ⟨h.toWellFormed, hs⟩)
    fun node m₁ h₁ he _ _ _ hdeeds => ?_
  refine ensures_settle_cases
    (add_lasts hI fuel m₁ c h₁.toWellFormed (henter node _ he hdeeds) he.idle)
    (fun _ hkept => hkept) (fun failed m₂ hkept => ?_) fun _ _ _ hkept => hkept
  -- a rollback takes constraints out, which only a property that may not be lost survives
  by_cases hlost : lost
  · exact fun _ _ _ => .inr ⟨hlost, _, rfl⟩
  · obtain ⟨h₂, hs₂⟩ := hkept.of_not_lost hlost
    exact (ensures_rollBackEnable_lasts hI hlost h₂ hs₂).mono
      fun _ _ hboth => .inl hboth

end SolveM

end DeltaBlue
