import DeltaBlue.Proofs.Conservation

/-!
# Conditions that are renewed

A recalculation of a constraint brings about a condition on it (`Solver.Renewable`), and takes the
condition only from constraints that compute something from its output. An operation that changes a
variable recalculates everything downstream before it returns. So if all constraints of a sound graph
meet the condition, they do after adding and removing, and after enabling and disabling, whatever these
come to.

The proof follows the calls once more. When a constraint is taken out to break a cycle, what the sweep
has left undone is downstream of the variable that is vacated (`Solver.InPass.downstream`), and the walk
from there recalculates all of it.
-/

namespace DeltaBlue

/-- As long as the marks have not started again, all constraints meet the condition. -/
def Machine.AllMeet {W T : Type} (fine : Solver W T → Ledger T → ConstraintId → Prop)
    (m : Machine W T) : Prop :=
  m.solver.passes < 2 ^ 64 → ∀ k, fine m.solver m.ledger k

namespace Solver

variable {W T : Type} {s s' : Solver W T} {fine : Solver W T → Ledger T → ConstraintId → Prop}
  (hfine : Renewable fine) {l l' : Ledger T} {k : ConstraintId}
include hfine

/-- Whether a constraint meets the condition is not a matter of marks, links and counters. -/
theorem Renewable.of_samePaint (hk : fine s l k)
    (hc : ∀ c, s'.constraintAt? c = s.constraintAt? c) (hv : ∀ v, SamePaint s s' v)
    (hl : l' k = l k) : fine s' l' k :=
  hfine.of_same hk (fun node hnode => ⟨node, by rw [← hc, hnode], rfl, rfl⟩) (fun _ _ v _ => hv v) hl

/-- A change of counters takes the condition from no constraint. -/
theorem Renewable.alike {m m' : Machine W T} (h : m.AllMeet fine) (halike : m.solver.Alike m'.solver)
    (hdeeds : m.NoDeed m') : m'.AllMeet fine := fun hlt k =>
  hfine.of_samePaint (h (halike.passes ▸ hlt) k) halike.constraintAt
    (fun v => samePaint_of_eq (halike.variableAt v)) (congrFun hdeeds.ledger k)

end Solver

namespace SolveM

open Solver (Sound Mendable InPass Alike Renewable)

variable {W T : Type} {m : Machine W T} {cells : Prop} {c : ConstraintId} {node : Constraint W T}
  {fine : Solver W T → Ledger T → ConstraintId → Prop}

/-- Adding an idle constraint to a sound graph keeps the condition. -/
def AddsRenewing (cells : Prop) (fine : Solver W T → Ledger T → ConstraintId → Prop)
    (add : ConstraintId → SolveM W T Unit) : Prop :=
  ∀ m c, m.solver.Sound cells → m.AllMeet fine → m.solver.Idle c →
    Ensures (add c) m fun _ m' => m'.AllMeet fine

/-- Removing a constraint that was switched off brings the condition about, if it was missed only
downstream of what the constraint determines and the graph was mendable there. -/
def RemovesRenewing (cells : Prop) (fine : Solver W T → Ledger T → ConstraintId → Prop)
    (remove : ConstraintId → SolveM W T Unit) : Prop :=
  ∀ m s c node, s.WellFormed → SwitchedOff s m.solver c node → m.solver.passes = s.passes →
    (s.passes < 2 ^ 64 → s.Mendable cells node) →
    (s.passes < 2 ^ 64 → ∀ k, ¬ fine s m.ledger k → s.Downstream node k) →
    Ensures (remove c) m fun _ m' => m'.AllMeet fine

/-- A constraint that leaves the graph without having determined anything takes the condition from
none. -/
theorem allMeet_of_detached (hfine : Renewable fine) {s : Solver W T} (h : s.WellFormed)
    (hd : s.Detached m.solver c node) (hout : node.output? = none) (hp : m.solver.passes = s.passes)
    (hpending : s.passes < 2 ^ 64 → ∀ k, ¬ fine s m.ledger k → s.Downstream node k) :
    m.AllMeet fine := by
  intro hlt k
  have hnone : ∀ a, node.output? ≠ some a := fun a ha => nomatch hout.symm.trans ha
  have hold : fine s m.ledger k := by
    by_contra hk
    obtain ⟨a, _, ha, _⟩ := hpending (hp ▸ hlt) k hk
    exact hnone a ha
  exact (hfine.detached hd h hold).resolve_right fun ⟨a, _, ha, _⟩ => hnone a ha

section

variable {add : ConstraintId → SolveM W T Unit} (hsound : AddsSoundly cells add)
  (hadd : AddsRenewing cells fine add)
include hsound hadd

/-- Adding the constraints of a list again keeps the condition. -/
theorem ensures_readd_renews {cs : List ConstraintId} {failure : Option SolveError}
    (h : m.solver.Sound cells) (hall : m.AllMeet fine) :
    Ensures (readd add cs failure) m fun _ m' => m'.AllMeet fine := by
  induction cs generalizing m failure with
  | nil => cases failure with
    | none => exact (ensures_pure _).2 hall
    | some e => exact (ensures_throw _).2 hall
  | cons c cs ih =>
    refine .readd_cons (fun _ _ => hall) (fun hidle => ?_) fun _ => ih h hall
    exact ((hsound m c h hidle).and (hadd m c h hall hidle)).mono
      fun _ _ ⟨h₁, hall₁⟩ _ _ _ => ih h₁ hall₁

/-- Taking a constraint out brings the condition about: the walk from the variable that is vacated
recalculates whatever misses it, and adding what was found keeps it. -/
theorem ensures_withdraw_renews (hfine : Renewable fine) (fuel : Nat) :
    RemovesRenewing cells fine (withdraw add fuel) := by
  intro m s c node h hoff hpasses hmend hpending
  rw [withdraw_eq, ensures_bind]
  refine ((ensures_detach h.toGrounded hoff).and (detach_abstains c m)).mono ?_
  rintro _ m₁ ⟨⟨rfl, hd, hp₁⟩, hdeeds⟩
  have hp : m₁.solver.passes = s.passes := hp₁.trans hpasses
  rw [← hdeeds.ledger] at hpending
  simp only
  unfold mend
  cases hout : node.output? with
  | none => exact (ensures_pure _).2 (allMeet_of_detached hfine h hd hout hp hpending)
  -- what misses the condition is downstream of the vacated variable, and the walk gets there
  | some a =>
    simp only [ensures_bind, ensures_ask]
    intro r m₂ hrun
    obtain ⟨h₂, hr, _⟩ := ensures_strandedFrom_sound h hd hp hmend hout r m₂ hrun
    have hall₂ : m₂.AllMeet fine := by
      intro hlt
      rw [hr.passes, hp] at hlt
      exact (ensures_strandedFrom_renews hfine h hd hout (hpending hlt) r m₂ hrun).2.2.1
    cases r with
    | ok found => exact ensures_readd_renews hsound hadd h₂ hall₂
    | error e => exact hall₂

end

section

variable {remove : ConstraintId → SolveM W T Unit} (hsound : RemovesSoundly cells remove)
  (hremove : RemovesRenewing cells fine remove) (hfine : Renewable fine)

include hremove in
/-- Breaking a cycle brings the condition about, if it was missed only downstream of the constraint that
is taken out. -/
theorem ensures_breakCycle_renews {closing : ConstraintId} {claimed : VarId}
    (h : m.solver.WellFormed)
    (hlive : m.solver.passes < 2 ^ 64 → (m.solver.constraintAt? closing).isSome)
    (hmend : m.solver.passes < 2 ^ 64 → ∀ n, m.solver.constraintAt? closing = some n →
      m.solver.Mendable cells n)
    (hpending : m.solver.passes < 2 ^ 64 → ∀ n, m.solver.constraintAt? closing = some n →
      ∀ k, ¬ fine m.solver m.ledger k → m.solver.Downstream n k) :
    Ensures (breakCycle remove closing claimed) m fun _ m' => m'.AllMeet fine := by
  rw [breakCycle_eq, ensures_bind]
  refine ((ensures_expel closing claimed).and (expel_abstains closing claimed m)).mono ?_
  rintro _ m₁ ⟨⟨hn, ⟨e, rfl⟩, halike⟩ | ⟨n, hn, rfl, hoff, hp⟩, hdeeds⟩
  · intro hlt
    have hsome := hlive (halike.passes ▸ hlt)
    rw [hn] at hsome
    cases hsome
  · simp only
    rw [ensures_bind]
    refine (hremove m₁ m.solver closing n h hoff hp (fun hlt => hmend hlt n hn) fun hlt => ?_).mono ?_
    · rw [hdeeds.ledger]
      exact hpending hlt n hn
    · intro r m' hall
      cases r with
      | ok _ => exact (ensures_throw _).2 hall
      | error _ => exact hall

include hremove hfine in
/-- Enforcing a constraint keeps the condition. -/
theorem ensures_enforce_renews {fuel : Nat} {mark : Mark} (h : m.solver.WellFormed)
    (hidle : m.solver.Idle c) (hpass : m.solver.passes < 2 ^ 64 → m.solver.InPass cells mark c)
    (hall : m.AllMeet fine) :
    Ensures (enforce remove fuel mark c) m fun _ m' => m'.AllMeet fine := by
  obtain ⟨node, hnode, hen, hnone⟩ := hidle
  refine (ensures_enforcement remove fuel mark h hnode hen hnone).mono fun r m' hcase => ?_
  -- the deed of the installation is one of `c`
  have hledger : ∀ {m₁ : Machine W T} {o : VarId}, m₁.deeds = .enforces c o :: m.deeds →
      ∀ k, k ≠ c → m₁.ledger k = m.ledger k := fun hdeeds _ hk =>
    Machine.ledger_of_not_concerns hdeeds (decide_eq_false hk.symm)
  cases hcase with
  | refused _ halike _ _ hdeeds => exact hfine.alike hall halike hdeeds
  | left _ halike _ _ hdeeds => exact hfine.alike hall halike hdeeds
  | @enforced m₁ m₂ i method x hi hp₁ _ hsweep hdeeds =>
    have hr := sweep_repaints mark fuel _ m₁ _ m₂ hsweep
    intro hlt k
    have hlt' : m.solver.passes < 2 ^ 64 := by
      rw [← hp₁, ← hr.passes]
      exact hlt
    obtain ⟨_, hdone, _⟩ := ensures_sweep_renews h hi hfine (hledger hdeeds) (hall hlt') _ m₂ hsweep
    exact hfine.of_samePaint (hdone k) (fun _ => rfl) (fun v =>
      Solver.samePaint_of_map (Solver.variableAt?_marked _ mark v) fun _ => ⟨rfl, rfl, rfl⟩) rfl
  | @cycle m₁ m₂ _ i method x closing a _ hi hp₁ _ hsweep hbreak hdeeds =>
    have hr := sweep_repaints mark fuel _ m₁ _ m₂ hsweep
    -- sweeping opens no pass, so the marks have not started again before it either
    have hpass₂ : m₂.solver.passes < 2 ^ 64 → m.solver.passes < 2 ^ 64 := by
      rw [hr.passes, hp₁]
      exact id
    refine ensures_breakCycle_renews hremove ((h.installed hi).repaints hr) (fun hlt => ?_)
      (fun hlt n hn => ?_) (fun hlt n hn k => ?_) r m' hbreak
    · obtain ⟨_, ⟨n, hn, _⟩, _⟩ := ensures_sweep_installed h hi (hpass (hpass₂ hlt)).settled _ m₂ hsweep
      rw [hr.constraintAt, hn]
      rfl
    · obtain ⟨hw, hswept⟩ := ensures_sweep_installed h hi (hpass (hpass₂ hlt)).settled _ m₂ hsweep
      exact (hpass (hpass₂ hlt)).mendable hi h hp₁ hw hn hswept
    · obtain ⟨hw, hswept⟩ :=
        ensures_sweep_renews h hi hfine (hledger hdeeds) (hall (hpass₂ hlt)) _ m₂ hsweep
      exact (hpass (hpass₂ hlt)).downstream hi h hw hn hswept

include hsound hremove hfine in
/-- A chain of displacements keeps the condition. -/
theorem ensures_displace_renews {fuel steps : Nat} {mark : Mark} (h : m.solver.Sound cells)
    (hidle : m.solver.Idle c) (hpass : m.solver.passes < 2 ^ 64 → m.solver.InPass cells mark c)
    (hall : m.AllMeet fine) :
    Ensures (displace remove fuel mark steps c) m fun _ m' => m'.AllMeet fine := by
  refine ensures_displace_of_enforce (J := fun c m => m.solver.Sound cells ∧ m.solver.Idle c ∧
    (m.solver.passes < 2 ^ 64 → m.solver.InPass cells mark c) ∧ m.AllMeet fine) ?_
    ⟨h, hidle, hpass, hall⟩
  rintro c m ⟨h, hidle, hpass, hall⟩
  refine ((ensures_enforce hsound h.toWellFormed hidle hpass).and
    (ensures_enforce_renews hremove hfine h.toWellFormed hidle hpass hall)).mono ?_
  rintro r m' ⟨⟨h', hnext⟩, hall'⟩
  -- the condition holds at every step, so it does not matter where the chain ends
  match r, hnext with
  | .error _, _ => exact hall'
  | .ok none, _ => exact hall'
  | .ok (some k), hnext => exact ⟨h', (hnext k rfl).1, (hnext k rfl).2, hall'⟩

end

variable (hfine : Renewable fine) {fuel : Nat}
include hfine

/-- Adding an idle constraint keeps the condition. -/
theorem add_renews (cells : Prop) (fuel : Nat) : AddsRenewing cells fine (add fuel) := by
  -- with less fuel, adding is what removing calls to put the stranded constraints back
  induction fuel with
  | zero => exact fun _ _ _ _ _ => ensures_unfinished
  | succ fuel ih =>
    intro m c h hall hidle
    unfold add nextMark
    simp only [ensures_bind, ensures_update, ensures_ask]
    refine ensures_displace_renews (ensures_withdraw_sound (add_sound cells fuel) fuel)
      (ensures_withdraw_renews (add_sound cells fuel) ih hfine fuel) hfine ?_ ?_ ?_ ?_
    · exact h.nextPass
    · exact hidle
    · exact fun hlt => h.inPass hlt c
    · intro hlt k
      exact hfine.of_samePaint (hall (Nat.lt_of_succ_lt hlt) k) (fun _ => rfl)
        (fun _ => Solver.samePaint_of_eq rfl) rfl

/-- A constraint that was switched off leaves the graph, and the condition is kept. -/
theorem ensures_leave_renews {s : Solver W T} (h : s.Sound cells)
    (hoff : SwitchedOff s m.solver c node) (hp : m.solver.passes = s.passes)
    (hall : s.passes < 2 ^ 64 → ∀ k, fine s m.ledger k) :
    Ensures (if node.isEnforcing then remove fuel c else deregister c) m
      fun _ m' => m'.AllMeet fine := by
  split
  · exact ensures_withdraw_renews (add_sound cells fuel) (add_renews hfine cells fuel) hfine fuel m s
      c node h.toWellFormed hoff hp (fun hlt => (h.rest hlt).mendable node)
      fun hlt k hk => absurd (hall hlt k) hk
  · next hidle =>
    rw [Constraint.isEnforcing, Option.not_isSome_iff_eq_none] at hidle
    refine ((ensures_deregister hoff hidle).and (deregister_abstains c m)).mono ?_
    rintro _ m₁ ⟨⟨_, hd, hp₁, _⟩, hdeeds⟩
    refine allMeet_of_detached hfine h.toWellFormed hd (Constraint.output?_eq_none hidle)
      (hp₁.trans hp) fun hlt k hk => absurd ?_ hk
    rw [hdeeds.ledger]
    exact hall hlt k

/-- Adding the constraint that has failed again keeps the condition. -/
theorem ensures_restore_renews {failed : ConstraintId} (h : m.solver.Sound cells)
    (hall : m.AllMeet fine) :
    Ensures (restore fuel c failed) m fun _ m' => m'.AllMeet fine := by
  refine ensures_restore_cases (fun _ hidle => ?_) fun _ => hall
  refine (add_renews hfine cells fuel m failed h hall hidle).mono fun _ m₁ hall₁ journal hdeeds => ?_
  exact hfine.alike hall₁ ⟨fun _ => rfl, fun _ => rfl, rfl, rfl⟩ hdeeds

/-- Rolling back keeps the condition. -/
theorem ensures_rollBackEnable_renews {failed : ConstraintId} (h : m.solver.Sound cells)
    (hall : m.AllMeet fine) :
    Ensures (rollBackEnable fuel c failed) m fun _ m' => m'.AllMeet fine := by
  have hnote : ∀ {m : Machine W T} {journal : List (Notice T)}, m.AllMeet fine →
      m.NoDeed { m with journal := journal } →
        Machine.AllMeet fine { m with journal := journal } := fun hall hdeeds =>
    hfine.alike hall ⟨fun _ => rfl, fun _ => rfl, rfl, rfl⟩ hdeeds
  refine ensures_rollBackEnable_cases (fun _ _ hdeeds => hnote hall hdeeds)
    fun node m₁ _ hoff hp _ hdeeds => ?_
  refine ((ensures_leave h hoff hp).and (ensures_leave_renews hfine h hoff hp fun hlt k => ?_)).mono
    fun _ m₂ ⟨h₂, hall₂⟩ journal hdeeds₂ => ?_
  · rw [hdeeds.ledger]
    exact hall hlt k
  · exact ensures_restore_renews hfine (m := ⟨m₂.solver, m₂.world, journal⟩) h₂ (hnote hall₂ hdeeds₂)

/-- Enabling a constraint keeps the condition, whatever it comes to. -/
theorem ensures_enable_renews (h : m.solver.Sound cells) (hall : m.AllMeet fine) :
    Ensures (enable fuel c) m fun _ m' => m'.AllMeet fine := by
  refine ensures_enable_cases h (fun _ _ => hall) fun node m₁ h₁ he hp _ _ hdeeds => ?_
  have hall₁ : m₁.AllMeet fine := by
    intro hlt k
    rw [hdeeds.ledger]
    exact hfine.entered he (hall (hp ▸ hlt) k)
  refine ensures_settle_cases ((add_sound cells fuel m₁ c h₁ he.idle).and
    (add_renews hfine cells fuel m₁ c h₁ hall₁ he.idle)) (fun _ h₂ => h₂.2) (fun failed m₂ h₂ => ?_)
    fun _ _ _ h₂ => h₂.2
  exact ensures_rollBackEnable_renews hfine h₂.1 h₂.2

/-- Disabling a constraint keeps the condition, whatever it comes to. -/
theorem ensures_disable_renews (h : m.solver.Sound cells) (hall : m.AllMeet fine) :
    Ensures (disable fuel c) m fun _ m' => m'.AllMeet fine := by
  refine ensures_disable_cases (fun _ _ _ => hall) fun node m₁ hoff hp _ _ hdeeds => ?_
  refine ensures_leave_renews hfine h hoff hp fun hlt k => ?_
  rw [hdeeds.ledger]
  exact hall hlt k

end SolveM

end DeltaBlue
