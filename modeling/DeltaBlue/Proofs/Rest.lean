import Mathlib.Algebra.Group.Nat.Defs
import DeltaBlue.Proofs.Transition
import DeltaBlue.Proofs.Walks

/-!
# A graph at rest

Between calls the graph is at `Rest`: every constraint is settled, a variable that no constraint
determines is held at the weakest strength and is constant, no method depends on its own output, and
no variable carries a mark that was not drawn yet. This module says what of it survives the changes
of the graph, and which of the damage the walks repair.

In a pass, when `c` is about to be enforced (`InPass`), every claimed variable leads to a variable
of `c` over claimed variables. So once a method of `c` is installed, every claimed variable leads to
its output, and a sweep that comes back to a claimed variable `a` has gone round a cycle through the
output. What the sweep then leaves undone is all downstream of `a`: the graph is `Mendable` by
removing the constraint that determines `a`.
-/

namespace DeltaBlue

/-- No pass has a mark beyond its number. Marks start again, and never run ahead. -/
theorem Mark.ofPass_le (n : Nat) : (Mark.ofPass n).value.toNat ≤ n := by
  unfold Mark.ofPass
  rw [UInt64.toNat_ofNat']
  refine Nat.le_trans (Nat.mod_le _ _) ?_
  have h := Nat.mod_le (n - 1) 0xffffffffffffffff
  split <;> omega

namespace Solver

open Relation

variable {W T : Type}

/-- A variable that no constraint determines is held at the weakest strength and is constant. -/
def Released (s : Solver W T) : Prop :=
  ∀ ⦃v x⦄, s.variableAt? v = some x → x.determinedBy = none →
    x.walkStrength = .weakest ∧ x.constant = true

/-- No variable carries a mark that was not drawn yet. -/
def Stamped (s : Solver W T) : Prop :=
  ∀ ⦃v x⦄, s.variableAt? v = some x → x.mark.value.toNat ≤ s.passes

/-- Nothing is left to be recalculated. -/
structure Rest (cells : Prop) (s : Solver W T) : Prop where
  /-- The output of every constraint satisfies its equations. -/
  settled : ∀ k, s.Settled cells k
  /-- Variables that no constraint determines are not held. -/
  released : s.Released
  /-- No method depends on its own output. -/
  acyclic : s.Acyclic
  /-- All marks were drawn. -/
  stamped : s.Stamped

/-- The variable is claimed in the pass with the mark. -/
def Claimed (s : Solver W T) (mark : Mark) (v : VarId) : Prop :=
  ∃ x, s.variableAt? v = some x ∧ x.mark = mark

/-- There is a way downstream that enters only claimed variables. -/
def LeadsTo (s : Solver W T) (mark : Mark) : VarId → VarId → Prop :=
  ReflTransGen fun v w => s.Feeds v w ∧ s.Claimed mark w

/-- `c` is about to be enforced in the pass with the mark. -/
structure InPass (cells : Prop) (s : Solver W T) (mark : Mark) (c : ConstraintId) : Prop
    extends Rest cells s where
  /-- The mark was drawn. -/
  drawn : mark.value.toNat ≤ s.passes
  /-- Every claimed variable leads to a variable of `c`. -/
  leads : ∀ {node v}, s.constraintAt? c = some node → s.Claimed mark v →
    ∃ u ∈ node.definition.vars, s.LeadsTo mark v u

/-- The output of `k` is downstream of the variable that the constraint determines. -/
def Downstream (s : Solver W T) (node : Constraint W T) (k : ConstraintId) : Prop :=
  ∃ a o, node.output? = some a ∧ s.Determines k o ∧ s.Reaches a o

/-- Everything that is not in order is downstream of the variable that the constraint determines. -/
structure Mendable (cells : Prop) (s : Solver W T) (node : Constraint W T) : Prop where
  /-- The outputs of unsettled constraints are downstream. -/
  pending : ∀ k, ¬ s.Settled cells k →
    ∃ a o, node.output? = some a ∧ s.Determines k o ∧ s.Reaches a o
  /-- Walks that stay away from what is downstream end. -/
  tame : ∀ v, Acc (fun w v => s.Feeds v w ∧ ∀ a, node.output? = some a → ¬ s.Reaches a w) v
  /-- Variables that no constraint determines are not held. -/
  released : s.Released
  /-- All marks were drawn. -/
  stamped : s.Stamped

/-- The structure of the graph is in order, and as long as the marks have not started again the
graph is at rest. -/
structure Sound (cells : Prop) (s : Solver W T) : Prop extends WellFormed s where
  /-- The graph is at rest. -/
  rest : s.passes < 2 ^ 64 → s.Rest cells

variable {s s' : Solver W T} {cells : Prop} {c k : ConstraintId} {node : Constraint W T}
  {mark : Mark}

/-- Where nothing is out of order, nothing has to be downstream of anything. -/
theorem Rest.mendable (h : s.Rest cells) (node : Constraint W T) : s.Mendable cells node where
  pending k hk := absurd (h.settled k) hk
  tame v := Subrelation.accessible (fun hf => hf.1) (h.acyclic v)
  released := h.released
  stamped := h.stamped

/-! ## Changes that leave the graph as it is -/

/-- A change of the work counters is no more than a walk. -/
theorem Alike.walked (h : s.Alike s') : s.Walked s' :=
  ⟨h.repaints, fun v _ => h.variableAt v⟩

/-- A walk leaves the variables alone that no constraint determines, so they stay released. -/
theorem Released.walked (h : s.Released) (hwf : s.WellFormed) (hw : s.Walked s') :
    s'.Released := by
  intro v x' hx' hnone
  obtain ⟨x, hx, _, hdet, _⟩ := hw.variable_of hx'
  rw [hdet] at hnone
  have hfree : ∀ c, ¬ s.Determines c v := by
    intro c hc
    have hsome := (hwf.determined hx c).2 hc
    rw [hnone] at hsome
    cases hsome
  rw [hw.undetermined v hfree] at hx'
  obtain rfl := Option.some.inj (hx.symm.trans hx')
  exact h hx hnone

/-- Marks are part of the shape, so repainting draws none. -/
theorem Stamped.repaints (h : s.Stamped) (hr : s.Repaints s') : s'.Stamped := by
  intro v x' hx'
  obtain ⟨x, hx, _, _, hmark⟩ := hr.variable_of hx'
  rw [hmark, hr.passes]
  exact h hx

/-- The variables have the determiners, flags and marks that they had before. -/
def Carried (s s' : Solver W T) : Prop :=
  ∀ ⦃v x'⦄, s'.variableAt? v = some x' → ∃ x, s.variableAt? v = some x ∧
    x'.determinedBy = x.determinedBy ∧ x'.walkStrength = x.walkStrength ∧
    x'.constant = x.constant ∧ x'.mark = x.mark

/-- Who determines a variable and what its flags are is all that being released is about. -/
theorem Released.carried (h : s.Released) (hv : s.Carried s') : s'.Released := by
  intro v x' hx' hnone
  obtain ⟨x, hx, hdet, hwalk, hconstant, _⟩ := hv hx'
  rw [hwalk, hconstant]
  exact h hx (hdet ▸ hnone)

/-- If the marks and the number of passes are the same, all marks are drawn still. -/
theorem Stamped.carried (h : s.Stamped) (hv : s.Carried s') (hp : s'.passes = s.passes) :
    s'.Stamped := by
  intro v x' hx'
  obtain ⟨x, hx, _, _, _, hmark⟩ := hv hx'
  rw [hmark, hp]
  exact h hx

/-- Repainting closes no cycle. -/
theorem Acyclic.repaints (h : s.Acyclic) (hr : s.Repaints s') : s'.Acyclic :=
  fun v => hr.ends.2 (h v)

/-- Whether a constraint is settled is not a matter of marks, links and counters. -/
theorem Settled.of_same (h : s.Settled cells k)
    (hc : ∀ c, s'.constraintAt? c = s.constraintAt? c) (hv : ∀ v, SamePaint s s' v) :
    s'.Settled cells k :=
  h.of_samePaint (fun node hnode => ⟨node, by rw [← hc, hnode], rfl, rfl⟩) fun _ _ v _ => hv v

/-- A change of the work counters leaves a graph at rest. -/
theorem Alike.rest (h : s.Alike s') (hwf : s.WellFormed) (hrest : s.Rest cells) :
    s'.Rest cells where
  settled k := (hrest.settled k).of_same h.constraintAt fun v => samePaint_of_eq (h.variableAt v)
  released := hrest.released.walked hwf h.walked
  acyclic := hrest.acyclic.repaints h.repaints
  stamped := hrest.stamped.repaints h.repaints

/-- Repainting claims no variable and gives none up. -/
theorem Repaints.claimed (hr : s.Repaints s') {v : VarId} : s'.Claimed mark v ↔ s.Claimed mark v := by
  constructor
  · rintro ⟨x', hx', hmark⟩
    obtain ⟨x, hx, _, _, he⟩ := hr.variable_of hx'
    exact ⟨x, hx, he ▸ hmark⟩
  · rintro ⟨x, hx, hmark⟩
    obtain ⟨x', hx', _, _, he⟩ := hr.symm.variable_of hx
    exact ⟨x', hx', he ▸ hmark⟩

/-! ## Marking -/

section Mark

variable (v : VarId) (mark : Mark)

/-- The structure is not a matter of marks. -/
theorem WellFormed.marked (h : s.WellFormed) :
    (s.modifyVariable v fun x => { x with mark := mark }).WellFormed := by
  refine h.of_links (fun _ => rfl) fun u => ?_
  rw [variableAt?_modifyVariable]
  by_cases hu : u = v
  · rw [if_pos hu, hu, Option.map_map]
    rfl
  · rw [if_neg hu]

/-- The mark is put on one variable, and the others keep theirs. -/
theorem variableAt?_marked (u : VarId) :
    (s.modifyVariable v fun x => { x with mark := mark }).variableAt? u =
      (s.variableAt? u).map fun x => { x with mark := if u = v then mark else x.mark } := by
  rw [variableAt?_modifyVariable]
  by_cases hu : u = v
  · subst hu
    simp
  · simp [hu]

/-- A mark that was drawn may be put on any variable. -/
theorem Rest.marked (h : s.Rest cells) (hdrawn : mark.value.toNat ≤ s.passes) :
    (s.modifyVariable v fun x => { x with mark := mark }).Rest cells where
  settled k := (h.settled k).of_same (fun _ => rfl) fun u =>
    samePaint_of_map (variableAt?_marked v mark u) fun _ => ⟨rfl, rfl, rfl⟩
  released := by
    intro u x' hx' hnone
    rw [variableAt?_marked] at hx'
    obtain ⟨x, hx, rfl⟩ := Option.map_eq_some_iff.1 hx'
    have hsame := h.released hx hnone
    exact hsame
  acyclic := h.acyclic
  stamped := by
    intro u x' hx'
    rw [variableAt?_marked] at hx'
    obtain ⟨x, hx, rfl⟩ := Option.map_eq_some_iff.1 hx'
    have hold := h.stamped hx
    simp only
    split
    · exact hdrawn
    · exact hold

/-- The variable that is marked is claimed, if it exists, and the others are as before. -/
theorem claimed_marked {v u : VarId} {mark : Mark} :
    (s.modifyVariable v fun x => { x with mark := mark }).Claimed mark u ↔
      (s.variableAt? u).isSome ∧ (u = v ∨ s.Claimed mark u) := by
  unfold Claimed
  rw [variableAt?_marked]
  cases s.variableAt? u with
  | none => simp
  | some x =>
    by_cases hu : u = v
    · simp [hu]
    · simp [hu]

end Mark

/-- The structure is not a matter of passes. -/
theorem WellFormed.nextPass (h : s.WellFormed) :
    ({ s with passes := s.passes + 1 } : Solver W T).WellFormed :=
  h.of_links (fun _ => rfl) fun _ => rfl

/-- A new pass is begun with nothing claimed. -/
theorem Sound.nextPass (h : s.Sound cells) :
    ({ s with passes := s.passes + 1 } : Solver W T).Sound cells where
  toWellFormed := h.toWellFormed.nextPass
  rest hlt := by
    -- the marks have not started again before, either
    have hrest := h.rest (Nat.lt_of_succ_lt hlt)
    refine ⟨fun k => (hrest.settled k).of_same (fun _ => rfl) fun v => samePaint_of_eq rfl,
      hrest.released, hrest.acyclic, fun v x hx => ?_⟩
    exact Nat.le_succ_of_le (hrest.stamped hx)

/-- The mark of a new pass is on no variable, as long as the marks have not started again. -/
theorem Sound.unclaimed (h : s.Sound cells) (hlt : s.passes + 1 < 2 ^ 64) (v : VarId) :
    ¬ ({ s with passes := s.passes + 1 } : Solver W T).Claimed (.ofPass (s.passes + 1)) v := by
  rintro ⟨x, hx, hmark⟩
  have hle : x.mark.value.toNat ≤ s.passes :=
    (h.rest (Nat.lt_of_succ_lt hlt)).stamped (show s.variableAt? v = some x from hx)
  -- all marks in the graph were drawn before this one
  rw [hmark, Mark.toNat_ofPass (Nat.le_of_lt_succ hlt)] at hle
  exact absurd hle (Nat.not_succ_le_self _)

/-- Any constraint may be enforced in a new pass. -/
theorem Sound.inPass (h : s.Sound cells) (hlt : s.passes + 1 < 2 ^ 64) (c : ConstraintId) :
    ({ s with passes := s.passes + 1 } : Solver W T).InPass cells (.ofPass (s.passes + 1)) c :=
  ⟨h.nextPass.rest hlt, Mark.ofPass_le _, fun _ hv => absurd hv (h.unclaimed hlt _)⟩

/-! ## Leaving the graph -/

section Detached

variable (hd : Detached s s' c node)
include hd

/-- Only the variable that is vacated looks different. -/
theorem Detached.samePaint {v : VarId} (hv : node.output? ≠ some v) : SamePaint s s' v := by
  refine samePaint_of_map (hd.variableAt v) fun x => ?_
  simp only [if_neg hv]
  split <;> exact ⟨rfl, rfl, rfl⟩

section Renewable

variable {fine : Solver W T → Ledger T → ConstraintId → Prop} (hfine : Renewable fine) {l : Ledger T}
include hfine

/-- A constraint that leaves the graph takes the condition only from those that compute something from its
output. -/
theorem Renewable.detached (h : s.WellFormed) (hk : fine s l k) :
    fine s' l k ∨ ∃ a w, node.output? = some a ∧ s'.Reads k a w := by
  by_contra hnot
  rw [not_or] at hnot
  obtain ⟨hstale, hreads⟩ := hnot
  obtain ⟨w, hw⟩ := hfine.determines_of_not hstale
  obtain ⟨hne, hw⟩ := (hd.determines_iff k w).1 hw
  -- its variables look the same, since it reads none that was vacated
  refine hstale (hfine.of_same hk ?_ ?_ rfl)
  · intro n hn
    exact ⟨n, (hd.reset.constraintAt_ne hne).symm.trans hn, rfl, rfl⟩
  · intro n hn v hv
    refine hd.samePaint fun hout => hreads ⟨v, w, hout, hd.reads_iff.2 ⟨hne, ?_⟩⟩
    obtain ⟨n', hn', hout'⟩ := hw
    obtain rfl := Option.some.inj (hn.symm.trans hn')
    refine ⟨n, hn, hout', hv, ?_⟩
    rintro rfl
    exact hne (h.determines_unique ⟨n, hn, hout'⟩ ⟨node, hd.before, hout⟩)

/-- If the constraints that do not meet the condition have their outputs downstream of the variable that
is vacated, then after the removal they compute something from what is downstream of it. -/
theorem Renewable.under (h : s.WellFormed) {a : VarId} (hout : node.output? = some a)
    (hpending : ¬ fine s l k → s.Downstream node k) (hk : ¬ fine s' l k) : s'.Under (· = a) k := by
  -- the condition is lost with the removal, or was not met before
  by_cases hold : fine s l k
  · obtain ⟨a', w, hout', hreads⟩ := (hfine.detached hd h hold).resolve_left hk
    obtain rfl := Option.some.inj (hout.symm.trans hout')
    exact ⟨a, rfl, a, w, .refl, hreads⟩
  · obtain ⟨a', o, hout', ho, hreach⟩ := hpending hold
    obtain rfl := Option.some.inj (hout.symm.trans hout')
    obtain ⟨_, hdet⟩ := hfine.determines_of_not hk
    obtain ⟨hne, _⟩ := (hd.determines_iff k _).1 hdet
    -- the last edge on the way to its output is one of the constraint's own
    rcases ReflTransGen.cases_tail hreach with rfl | ⟨u, hreach, j, hj⟩
    · exact absurd (h.determines_unique ho ⟨node, hd.before, hout⟩) hne
    · obtain rfl := h.determines_unique hj.determines ho
      exact ⟨a, rfl, u, o, hd.reaches hout hreach, hd.reads_iff.2 ⟨hne, hj⟩⟩

end Renewable

/-- If the walks from the vacated variable end, all walks do. -/
theorem Mendable.acyclic (hm : s.Mendable cells node)
    (hends : ∀ a, node.output? = some a → s'.Ends a) : s'.Acyclic := by
  intro v
  -- by induction along the walks that stay away from the vacated variable
  induction hm.tame v with
  | intro v _ ih =>
    refine .intro v fun w hf => ?_
    obtain ⟨k, hk⟩ := hf
    -- a walk either gets downstream of the vacated variable or stays away from it for good
    by_cases hreach : ∃ a, node.output? = some a ∧ s.Reaches a w
    · obtain ⟨a, hout, hreach⟩ := hreach
      exact (hends a hout).of_reaches (hd.reaches hout hreach)
    · refine ih w ⟨⟨k, (hd.reads_iff.1 hk).2⟩, fun a hout hr => hreach ⟨a, hout, hr⟩⟩

/-- All variables without a determiner are released, the vacated one included. -/
theorem Detached.released (hr : s.Released) : s'.Released := by
  intro v x' hx' hnone
  rw [hd.variableAt] at hx'
  obtain ⟨x, hx, rfl⟩ := Option.map_eq_some_iff.1 hx'
  -- the vacated variable is released now, and the others as before
  by_cases hout : node.output? = some v
  · simp only [if_pos hout]
    exact ⟨rfl, rfl⟩
  · simp only [if_neg hout] at hnone ⊢
    have hsame := hr hx
    split at hnone
    · next hv =>
      rw [if_pos hv]
      exact hsame hnone
    · next hv =>
      rw [if_neg hv]
      exact hsame hnone

/-- Leaving the graph moves no mark. -/
theorem Detached.stamped (hst : s.Stamped) (hp : s'.passes = s.passes) : s'.Stamped := by
  intro v x' hx'
  rw [hd.variableAt] at hx'
  obtain ⟨x, hx, rfl⟩ := Option.map_eq_some_iff.1 hx'
  rw [hp]
  refine Nat.le_trans (Nat.le_of_eq ?_) (hst hx)
  simp only
  split <;> split <;> rfl

/-- A constraint without a method in force leaves the graph as it is. -/
theorem Detached.rest (h : s.WellFormed) (hm : s.Mendable cells node)
    (hnone : node.output? = none) (hp : s'.passes = s.passes) : s'.Rest cells := by
  have hno : ∀ a, node.output? = some a → False := by
    intro a ha
    rw [hnone] at ha
    cases ha
  refine ⟨fun k => ?_, hd.released hm.released, hm.acyclic hd fun a ha => (hno a ha).elim,
    hd.stamped hm.stamped hp⟩
  have hold : s.Settled cells k := by
    by_contra hk
    obtain ⟨a, _, ha, _⟩ := hm.pending k hk
    exact hno a ha
  exact ((settled_renewable fun _ => cells).detached hd (l := fun _ => none) h hold).resolve_right
    fun ⟨a, _, ha, _⟩ => hno a ha

end Detached

/-! ## Installing a method -/

section Installed

variable {i : Nat} {m : Method W T} {x : Variable T}
  (hi : Installed s s' mark c node i m x)
include hi

/-- The installation takes the condition from no constraint but `c`, if the latest deed is one of `c`. -/
theorem Renewable.installed {fine : Solver W T → Ledger T → ConstraintId → Prop} (hfine : Renewable fine)
    {l l' : Ledger T} (hl : l' k = l k) (hk : fine s l k) (hne : k ≠ c) : fine s' l' k := by
  -- the displaced constraint has nothing in force to meet a condition with, and the others are as
  -- they were
  by_cases hdis : x.determinedBy = some k
  · refine hfine.of_idle fun v => ?_
    cases hn : s.constraintAt? k with
    | none =>
      rintro ⟨n, hn', _⟩
      rw [hi.constraintAt, if_neg hne, if_pos hdis, hn] at hn'
      cases hn'
    | some n =>
      have hn' : s'.constraintAt? k = some { n with enforcing := none } := by
        rw [hi.constraintAt, if_neg hne, if_pos hdis, hn]
        rfl
      exact not_determines hn' rfl v
  · refine hfine.of_same hk ?_ ?_ hl
    · intro n hn
      rw [hi.constraintAt, if_neg hne, if_neg hdis] at hn
      exact ⟨n, hn, rfl, rfl⟩
    · intro _ _ v _
      exact samePaint_of_map (hi.variableAt v) fun _ => ⟨rfl, rfl, rfl⟩

/-- The output has a determiner now, and the others have the one that they had. -/
theorem Installed.released (hr : s.Released) : s'.Released := by
  intro v y' hy' hnone
  rw [hi.variableAt] at hy'
  obtain ⟨y, hy, rfl⟩ := Option.map_eq_some_iff.1 hy'
  by_cases hv : v = m.output
  · simp only [if_pos hv] at hnone
    cases hnone
  · simp only [if_neg hv] at hnone
    have hsame := hr hy hnone
    exact hsame

/-- The mark of the pass was drawn, and it is the only one put on variables. -/
theorem Installed.stamped (hst : s.Stamped) (hdrawn : mark.value.toNat ≤ s.passes)
    (hp : s'.passes = s.passes) : s'.Stamped := by
  intro v y' hy'
  rw [hi.variableAt] at hy'
  obtain ⟨y, hy, rfl⟩ := Option.map_eq_some_iff.1 hy'
  rw [hp]
  simp only
  split
  · exact hdrawn
  · exact hst hy

/-- The output is unclaimed before the installation and after it; the other variables of `c` are
claimed, and no others are. -/
theorem Installed.claimed_iff (h : s.WellFormed) {v : VarId} :
    s'.Claimed mark v ↔ v ≠ m.output ∧ (s.Claimed mark v ∨ v ∈ node.definition.vars) := by
  obtain ⟨hx, hxm, _⟩ := hi.output
  constructor
  · rintro ⟨y', hy', hmark⟩
    rw [hi.variableAt] at hy'
    obtain ⟨y, hy, rfl⟩ := Option.map_eq_some_iff.1 hy'
    by_cases hv : v ∈ node.definition.vars ∧ v ≠ m.output
    · exact ⟨hv.2, .inr hv.1⟩
    · simp only [if_neg hv] at hmark
      refine ⟨?_, .inl ⟨y, hy, hmark⟩⟩
      rintro rfl
      obtain rfl := Option.some.inj (hx.symm.trans hy)
      exact hxm hmark
  · -- a variable is claimed from before, or as one of the inputs
    rintro ⟨hne, hold⟩
    have hlive : ∃ y, s.variableAt? v = some y := by
      rcases hold with ⟨y, hy, _⟩ | hv
      · exact ⟨y, hy⟩
      · exact Option.isSome_iff_exists.1 (h.mentioned hi.before.1 v hv)
    obtain ⟨y, hy⟩ := hlive
    refine ⟨_, by rw [hi.variableAt, hy]; rfl, ?_⟩
    simp only
    split
    · rfl
    · next hv =>
      rcases hold with ⟨y', hy', hmark⟩ | hvars
      · obtain rfl := Option.some.inj (hy.symm.trans hy')
        exact hmark
      · exact absurd ⟨hvars, hne⟩ hv

/-- After the installation every claimed variable leads to the output, over claimed variables up to
the last edge. -/
theorem InPass.leads_output (hpass : s.InPass cells mark c) (h : s.WellFormed) {v : VarId}
    (hv : s'.Claimed mark v) : ∃ u, s'.LeadsTo mark v u ∧ s'.Feeds u m.output := by
  obtain ⟨hne, hold⟩ := (hi.claimed_iff h).1 hv
  -- a variable claimed earlier leads to one of `c`, which feeds the output now
  rcases hold with hclaimed | hmem
  · obtain ⟨u, hu, hpath⟩ := hpass.leads hi.before.1 hclaimed
    -- the output was unclaimed, so the way to `u` does not enter it and its edges are still there
    have hunclaimed : ¬ s.Claimed mark m.output := by
      rintro ⟨y, hy, hmark⟩
      obtain rfl := Option.some.inj (hi.output.1.symm.trans hy)
      exact hi.output.2.1 hmark
    have hkeep : s'.LeadsTo mark v u ∧ u ≠ m.output := by
      clear hu
      -- along the way to `u`, which enters claimed variables only
      induction hpath with
      | refl => exact ⟨.refl, hne⟩
      | @tail b w _ hstep ih =>
        have hw : w ≠ m.output := by
          rintro rfl
          exact hunclaimed hstep.2
        exact ⟨ih.1.tail ⟨(hi.feeds_of_ne h hw).2 hstep.1,
          (hi.claimed_iff h).2 ⟨hw, .inl hstep.2⟩⟩, hw⟩
    exact ⟨u, hkeep.1, hi.feeds_output h hu hkeep.2⟩
  · exact ⟨v, .refl, hi.feeds_output h hmem hne⟩

section Closed

variable (hpass : s.InPass cells mark c) (h : s.WellFormed) {s₂ : Solver W T} (hw : s'.Walked s₂)
  {closing : ConstraintId} {a : VarId} {n : Constraint W T} (hn : s₂.constraintAt? closing = some n)
  {done : ConstraintId → Prop}
  (hswept : Swept done mark s' (.singleton c) (.ok (some (closing, a))))
include hpass h hw hn hswept

/-- A sweep that comes back to a claimed variable has gone round from the output to the variable and
back. -/
theorem InPass.goes_round : n.output? = some a ∧ s'.Reaches a m.output := by
  obtain ⟨⟨n', hn', hout⟩, hclaimed, _, _⟩ := hswept
  rw [hw.constraintAt, hn'] at hn
  obtain rfl := Option.some.inj hn
  obtain ⟨u, hpath, hlast⟩ := hpass.leads_output hi h hclaimed
  exact ⟨hout, (ReflTransGen.mono (fun _ _ hstep => And.left hstep) _ _ hpath).tail hlast⟩

/-- What such a sweep leaves undone is downstream of the variable. -/
theorem InPass.downstream (hk : ¬ done k) : s₂.Downstream n k := by
  obtain ⟨hout, hreach⟩ := hpass.goes_round hi h hw hn hswept
  obtain ⟨_, _, _, hrest⟩ := hswept
  obtain ⟨o, ho, j, hj, o', ho', hbelow⟩ := hrest k hk
  obtain rfl := OrderedSet.mem_singleton.1 hj
  obtain rfl := ho'.unique hi.determines
  exact ⟨a, o, hout, hw.determines.2 ho, hw.reaches ▸ hreach.trans hbelow⟩

end Closed

/-- A sweep that comes back to a claimed variable leaves the graph mendable there. -/
theorem InPass.mendable (hpass : s.InPass cells mark c) (h : s.WellFormed)
    (hp : s'.passes = s.passes) {s₂ : Solver W T} (hw : s'.Walked s₂) {closing : ConstraintId}
    {a : VarId} {n : Constraint W T} (hn : s₂.constraintAt? closing = some n)
    (hswept : Swept (s₂.Settled cells) mark s' (.singleton c) (.ok (some (closing, a)))) :
    s₂.Mendable cells n := by
  obtain ⟨hout, hreach⟩ := hpass.goes_round hi h hw hn hswept
  refine ⟨fun k => hpass.downstream hi h hw hn hswept, fun v => ?_,
    (hi.released hpass.released).walked (h.installed hi) hw,
    (hi.stamped hpass.stamped hpass.drawn hp).repaints hw.toRepaints⟩
  -- an edge that is not old leads to the output, which is downstream
  induction hpass.acyclic v with
  | intro v _ ih =>
    refine .intro v fun w hf => ?_
    obtain ⟨hf, haway⟩ := hf
    rw [hw.feeds] at hf
    refine ih w ((hi.feeds_of_ne h ?_).1 hf)
    rintro rfl
    exact haway a hout (hw.reaches ▸ hreach)

/-- A sweep that comes to its end leaves the graph at rest. -/
theorem InPass.swept (hpass : s.InPass cells mark c) (h : s.WellFormed)
    (hp : s'.passes = s.passes) {s₂ : Solver W T} (hw : s'.Walked s₂)
    (hswept : Swept (s₂.Settled cells) mark s' (.singleton c) (.ok none)) : s₂.Rest cells := by
  obtain ⟨hsettled, hends⟩ := hswept
  have hout := hends c (OrderedSet.mem_singleton.2 rfl) m.output hi.determines
  refine ⟨hsettled, (hi.released hpass.released).walked (h.installed hi) hw,
    Acyclic.repaints (hpass.acyclic.of_ends fun v w hf => ?_) hw.toRepaints,
    (hi.stamped hpass.stamped hpass.drawn hp).repaints hw.toRepaints⟩
  -- the new edges lead into the output, from where all walks end
  by_cases hwo : w = m.output
  · exact .inr (hwo ▸ hout)
  · exact .inl ((hi.feeds_of_ne h hwo).1 hf)

/-- When the sweep has come to its end and the output is claimed, the displaced constraint is about
to be enforced in the same pass. -/
theorem InPass.displaced (hpass : s.InPass cells mark c) (h : s.WellFormed)
    (hp : s'.passes = s.passes) {s₂ : Solver W T} (hr : s'.Repaints s₂) (hrest : s₂.Rest cells)
    (hk : x.determinedBy = some k) :
    (s₂.modifyVariable m.output fun y => { y with mark := mark }).InPass cells mark k := by
  have hdrawn : mark.value.toNat ≤ s₂.passes := by
    rw [hr.passes, hp]
    exact hpass.drawn
  refine ⟨hrest.marked m.output mark hdrawn, hdrawn, ?_⟩
  intro node' v hnode' hv
  have hlive : (s₂.variableAt? m.output).isSome := by
    rw [hr.live, hi.variableAt, hi.output.1]
    rfl
  -- the displaced constraint mentions the output, to which everything claimed leads
  refine ⟨m.output, ?_, ?_⟩
  · obtain ⟨n, hn, hout⟩ := (h.determined hi.output.1 k).1 hk
    rw [constraintAt?_modifyVariable, hr.constraintAt] at hnode'
    obtain ⟨n', hn', hde, _⟩ := hi.constraint_of hnode'
    obtain rfl := Option.some.inj (hn.symm.trans hn')
    simp only [Constraint.declared, Prod.mk.injEq] at hde
    rw [hde.1]
    exact Constraint.mem_vars_of_output? hout
  · obtain ⟨_, rfl | hclaimed⟩ := claimed_marked.1 hv
    · exact .refl
    · obtain ⟨u, hpath, hlast⟩ := hpass.leads_output hi h (hr.claimed.1 hclaimed)
      -- marking moves no edge
      have hfeeds : ∀ {v w}, s'.Feeds v w →
          (s₂.modifyVariable m.output fun y => { y with mark := mark }).Feeds v w := by
        intro v w hf
        rw [← hr.feeds] at hf
        exact hf
      refine ReflTransGen.tail (ReflTransGen.mono (fun v w hstep => ?_) _ _ hpath)
        ⟨hfeeds hlast, claimed_marked.2 ⟨hlive, .inl rfl⟩⟩
      obtain ⟨y, hy, hym⟩ := hr.claimed.2 hstep.2
      exact ⟨hfeeds hstep.1, claimed_marked.2 ⟨by rw [hy]; rfl, .inr ⟨y, hy, hym⟩⟩⟩

end Installed

end Solver

end DeltaBlue
