import DeltaBlue.Proofs.Bookkeeping
import DeltaBlue.Proofs.Circling
import DeltaBlue.Proofs.Course
import DeltaBlue.Proofs.Required

/-!
# Cycles are detected exactly

The walk that follows an installed method stops at a constraint whose output carries the mark of the
pass, and knows nothing else about cycles. The mark says enough: the claimed variables are the other
variables of the constraints that were enforced in the pass and, but for the last, their outputs, and
each of them leads to the output of the last one (`InPass.leads_output`). So a walk that started at this
output and comes to a claimed variable has gone round. Conversely, before the installation there is no
cycle, so one that there is now passes through the new output, and comes to it from a variable that is
claimed: the walk cannot miss it.

For the same reason the walk ends, although it may start in a graph with a cycle: it does not go on from
claimed variables, and only these have new edges.
-/

namespace DeltaBlue

namespace Solver

open Relation

variable {W T : Type} {s s' : Solver W T} {cells : Prop} {c : ConstraintId} {node : Constraint W T}
  {mark : Mark} {i : Nat} {m : Method W T} {x : Variable T}

section Installed

variable (h : s.WellFormed) (hi : Installed s s' mark c node i m x)
include h hi

/-- No walk over unclaimed variables goes on for ever after an installation: the new edges come from
claimed variables. -/
theorem Installed.wellFounded_nextUnclaimed (hacyclic : s.Acyclic) :
    WellFounded (s'.NextUnclaimed mark) := by
  refine Subrelation.wf (r := fun w v => s.Feeds v w) ?_ ⟨hacyclic⟩
  rintro w v ⟨hnext, y, hy, hmark⟩
  have hfeeds := (h.installed hi).feeds_of_next hnext
  refine (hi.feeds_of_ne h ?_).1 hfeeds
  -- the output is computed from the other variables of `c`, which are claimed
  rintro rfl
  obtain ⟨k, hreads⟩ := hfeeds
  rw [hi.reads_iff h, if_pos rfl] at hreads
  obtain ⟨_, hv, hne⟩ := hreads
  obtain ⟨y', hy', hmark'⟩ := (hi.claimed_iff h).2 ⟨hne, .inr hv⟩
  obtain rfl := Option.some.inj (hy.symm.trans hy')
  exact hmark hmark'

/-- A constraint at which the walk stops closes a cycle. -/
theorem Installed.cycle_of_swept (hpass : s.InPass cells mark c) {done : ConstraintId → Prop}
    {closing : ConstraintId} {a : VarId}
    (hswept : Swept done mark s' (.singleton c) (.ok (some (closing, a)))) :
    ∃ v, s'.Reads closing v a ∧ s'.Reaches a v := by
  obtain ⟨hdet, hclaimed, ⟨k, hk, o, ho, hback⟩, _⟩ := hswept
  obtain rfl := OrderedSet.mem_singleton.1 hk
  obtain rfl := ho.unique hi.determines
  -- from the claimed variable to the output, and from there back
  obtain ⟨u, hpath, hlast⟩ := hpass.leads_output hi h hclaimed
  have hcycle : TransGen s'.Feeds a a :=
    (TransGen.tail' (ReflTransGen.mono (fun _ _ hstep => And.left hstep) _ _ hpath) hlast).trans_left
      hback
  obtain ⟨v, hreach, j, hj⟩ := TransGen.tail'_iff.1 hcycle
  obtain rfl := (h.installed hi).determines_unique hdet hj.determines
  exact ⟨v, hj, hreach⟩

end Installed

/-- At rest the output of every constraint carries the walk strength and the constancy that the
constraint gives to it. -/
theorem Rest.flags_of_output (h : s.Rest cells) (hwf : s.WellFormed) {o : VarId}
    (hnode : s.constraintAt? c = some node) (hout : node.output? = some o) :
    ∃ y, s.variableAt? o = some y ∧
      s.walkStrengthOf node.definition o = .ok y.walkStrength ∧
      s.constancyOf node.definition o = .ok y.constant := by
  obtain ⟨y, hy⟩ := Option.isSome_iff_exists.1
    (hwf.mentioned hnode o (Constraint.mem_vars_of_output? hout))
  obtain ⟨hwalk, hconstant⟩ := h.balanced.determined c node o hnode hout
  have hlive := hwf.mentioned hnode
  refine ⟨y, hy, ?_, ?_⟩
  · rw [walkStrengthOf_eq hlive, ← walkAt_eq hy]
    exact congrArg _ hwalk.symm
  · rw [constancyOf_eq hlive, ← constantAt_eq hy]
    exact congrArg _ hconstant.symm

end Solver

namespace SolveM

open Relation

variable {W T : Type} {cells : Prop} {m m' : Machine W T} {mark : Mark} {c : ConstraintId}
  {o : VarId} {displaced : Option ConstraintId}

/-- The walk that follows an installed method comes to its end, and stops at a constraint if and only
if the methods in force form a cycle, and then at one that is on a cycle. -/
theorem sweep_exact (h : m.solver.WellFormed) (hidle : m.solver.Idle c)
    (hpass : m.solver.InPass cells mark c)
    (hinstall : exec (install mark c) m = some (.ok (some (o, displaced)), m')) :
    Returns (fun fuel => sweep mark fuel (.singleton c)) m' fun r m'' => ∃ closed, r = .ok closed ∧
      (closed.isSome ↔ ∃ v, TransGen m'.solver.Feeds v v) ∧
      (∀ closing a, closed = some (closing, a) →
        ∃ v, m'.solver.Reads closing v a ∧ m'.solver.Reaches a v) ∧
      (closed = none → m''.solver.Rest cells) := by
  obtain ⟨node, i, x, method, hi, rfl, rfl, hp⟩ := installed_of_exec h hidle hinstall
  have hwf := Solver.wellFounded_after (hi.wellFounded_nextUnclaimed h hpass.acyclic)
  refine ((sweep_returns (.singleton c) hwf).and_ensures fun fuel =>
    ensures_sweep_installed h hi hpass.settled).mono ?_
  rintro r m'' ⟨hr, hw, hswept⟩
  match r, hswept with
  | .ok none, hswept =>
    have hrest := hpass.swept hi h hp hw hswept
    refine ⟨none, rfl, iff_of_false nofun ?_, nofun, fun _ => hrest⟩
    -- the graph that is swept has the edges from before, and at rest these form no cycle
    rintro ⟨v, hcycle⟩
    rw [← hr.feeds] at hcycle
    exact (hrest.acyclic v).not_transGen hcycle
  | .ok (some (closing, a)), hswept =>
    obtain ⟨v, hreads, hreach⟩ := hi.cycle_of_swept h hpass hswept
    refine ⟨some (closing, a), rfl, iff_of_true rfl ⟨v, ?_⟩, fun closing' a' he => ?_, nofun⟩
    · exact TransGen.head' hreads.feeds hreach
    · obtain ⟨rfl, rfl⟩ := Prod.mk.inj (Option.some.inj he)
      exact ⟨v, hreads, hreach⟩

/-- A result that gives a value is a success with it. -/
theorem eq_ok_of_toOption {α : Type} {r : Except SolveError α} {a : α}
    (h : r.toOption = some a) : r = .ok a := by
  cases r with
  | error e => cases h
  | ok b => rw [Option.some.inj h]

end SolveM

namespace Run

open Relation
open SolveM (exec Makes)

variable {W T : Type} {own : Prop} {config : Config} {plans : List (Plan × Nat)}
  {m : Machine W T}

/-- Whenever a constraint is enforced in the course of a call and a method of it is installed, the walk
that follows comes to its end after finitely many steps, with any larger amount of fuel the same. It
stops at a constraint exactly if the methods in force form a directed cycle, and this constraint then
lies on one. If it stops at none, the output of every constraint with a method in force carries the walk
strength and the constancy that recalculating would give it. -/
theorem cycle_detection_exact (h : Run own config plans m) {call : Call W T} {fuel fuel' : Nat}
    {mark : Mark} {c : ConstraintId} {m₁ m₂ : Machine W T} {o : VarId}
    {displaced : Option ConstraintId}
    (hmade : ReflTransGen Makes ⟨fuel, .call call, m⟩ ⟨fuel', .enforce mark c, m₁⟩)
    (hpasses : m₁.solver.passes < 2 ^ 64)
    (hinstall : exec (SolveM.install mark c) m₁ = some (.ok (some (o, displaced)), m₂)) :
    ∃ closed m₃,
      (∃ bound, ∀ steps, bound ≤ steps →
        exec (SolveM.sweep mark steps (.singleton c)) m₂ = some (.ok closed, m₃)) ∧
      (∀ steps p, exec (SolveM.sweep mark steps (.singleton c)) m₂ = some p →
        p = (.ok closed, m₃)) ∧
      (closed.isSome ↔ ∃ v, TransGen m₂.solver.Feeds v v) ∧
      (∀ closing a, closed = some (closing, a) →
        ∃ v, m₂.solver.Reads closing v a ∧ m₂.solver.Reaches a v) ∧
      (closed = none → ∀ k node, m₃.solver.constraintAt? k = some node → node.isEnforcing = true →
        ∃ o x, node.output? = some o ∧ m₃.solver.variableAt? o = some x ∧
          m₃.solver.walkStrengthOf node.definition o = .ok x.walkStrength ∧
          m₃.solver.constancyOf node.definition o = .ok x.constant) := by
  obtain ⟨hsound, hidle, hpass⟩ := h.admits hmade
  have h₁ := hsound.toWellFormed
  obtain ⟨_, _, _, _, hi, _⟩ := SolveM.installed_of_exec h₁ hidle hinstall
  obtain ⟨_, m₃, ⟨closed, rfl, hcycle, hclosing, hrest⟩, bound, hreturns⟩ :=
    SolveM.sweep_exact h₁ hidle (hpass hpasses) hinstall
  refine ⟨closed, m₃, ⟨bound, hreturns⟩, fun steps p hp => ?_, hcycle, hclosing,
    fun hnone k node hnode hen => ?_⟩
  · -- with the larger of two amounts of fuel the walk comes to both results
    have hmore := SolveM.exec_of_cutShort (fun fuel => SolveM.sweep_cutShort mark fuel _) hp
      (Nat.le_max_left steps bound)
    rw [hreturns _ (Nat.le_max_right steps bound)] at hmore
    exact (Option.some.inj hmore).symm
  · have hr := SolveM.sweep_repaints mark bound _ m₂ _ m₃ (hreturns bound (Nat.le_refl _))
    have h₃ := (h₁.installed hi).repaints hr
    obtain ⟨o, hout⟩ := h₃.exists_output hnode hen
    obtain ⟨x, hx, hflags⟩ := (hrest hnone).flags_of_output h₃ hnode hout
    exact ⟨o, x, hout, hx, hflags⟩

/-- Two one-way relations between two variables, the second of which is not enabled. -/
def thereAndBack : List (Call Unit Nat) :=
  [.newVariables [1, 2],
    .constrain (.relation .strong ⟨1, 0⟩ [] [⟨0, 0⟩] .first),
    .insert (.relation .strong ⟨0, 0⟩ [] [⟨1, 0⟩] .first)]

/-- When the second relation is enabled and enforced, the walk stops at the first one, which lies on a
cycle. -/
theorem cycle_detection_exact_thereAndBack : ∃ (m m₁ m₂ m₃ : Machine Unit Nat) (mark : Mark)
    (o : VarId) (displaced : Option ConstraintId),
    Call.runAll 9 thereAndBack ⟨.empty {}, (), []⟩ = some m ∧
    ReflTransGen Makes ⟨9, .call (.enable ⟨1, 0⟩), m⟩ ⟨8, .enforce mark ⟨1, 0⟩, m₁⟩ ∧
    m₁.solver.passes < 2 ^ 64 ∧
    exec (SolveM.install mark ⟨1, 0⟩) m₁ = some (.ok (some (o, displaced)), m₂) ∧
    exec (SolveM.sweep mark 8 (.singleton ⟨1, 0⟩)) m₂ =
      some (.ok (some (⟨0, 0⟩, ⟨1, 0⟩)), m₃) ∧
    ∃ v, m₂.solver.Reads ⟨0, 0⟩ v ⟨1, 0⟩ ∧ m₂.solver.Reaches ⟨1, 0⟩ v := by
  have hany : (Call.runAll 9 thereAndBack ⟨.empty {}, (), []⟩).any (fun m =>
      ((m.solver.constraintAt? ⟨1, 0⟩).any fun node => node.enabled = false) ∧
      (exec (SolveM.enter ⟨1, 0⟩) m).any fun entered => entered.1.toOption = some () ∧
        (exec SolveM.nextMark entered.2).any fun pass => pass.2.solver.passes < 2 ^ 64 ∧
          pass.1.toOption.any fun mark =>
            (exec (SolveM.install mark ⟨1, 0⟩) pass.2).any fun installed =>
              installed.1.toOption.any fun given => given.any fun _ =>
                (exec (SolveM.sweep mark 8 (.singleton ⟨1, 0⟩)) installed.2).any fun swept =>
                  swept.1.toOption = some (some (⟨0, 0⟩, ⟨1, 0⟩))) = true := by
    decide +kernel
  simp only [Option.any_eq_true, decide_eq_true_eq, Prod.exists] at hany
  obtain ⟨m, hm, ⟨node, hnode, hoff⟩, _, m₀, henter, hentered, _, m₁, hpass, hpasses, mark, hmark,
    _, m₂, hinstall, _, hgiven, o, displaced, rfl, _, m₃, hsweep, hswept⟩ := hany
  obtain rfl := SolveM.eq_ok_of_toOption hentered
  obtain rfl := SolveM.eq_ok_of_toOption hmark
  obtain rfl := SolveM.eq_ok_of_toOption hgiven
  obtain rfl := SolveM.eq_ok_of_toOption hswept
  have hstart : Run False {} [] (⟨.empty {}, (), []⟩ : Machine Unit Nat) := .start ()
  obtain ⟨plans, h⟩ := runAll hstart (by decide) hm
  -- the way from the call to the enforcing, one step of the call tree after the other
  have hmade : ReflTransGen Makes ⟨9, .call (.enable ⟨1, 0⟩), m⟩ ⟨8, .enforce mark ⟨1, 0⟩, m₁⟩ :=
    .tail (.tail (.tail (.tail (.single .callEnable) (.settle hnode hoff henter)) .settleAdd)
      (.pass hpass)) .enforce
  obtain ⟨closed, _, _, hends, _, hclosing, _⟩ := cycle_detection_exact h hmade hpasses hinstall
  obtain ⟨hclosed, _⟩ := Prod.mk.inj (hends 8 _ hsweep)
  obtain rfl := Except.ok.inj hclosed
  exact ⟨m, m₁, m₂, m₃, mark, o, displaced, hm, hmade, hpasses, hinstall, hsweep,
    hclosing _ _ rfl⟩

end Run

end DeltaBlue
