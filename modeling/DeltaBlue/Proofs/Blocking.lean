import DeltaBlue.Proofs.Apart
import DeltaBlue.Proofs.Rollback

/-!
# Idle constraints of a forest are blocked

If the enabled constraints form a forest, then their outputs are apart, and between calls every idle
constraint is blocked. Besides, none is required (`Solver.Tidy`).

A pass takes one idle constraint after the other. Of the variables of the one whose turn it is
(`Solver.Poised`), and not only of its outputs, at most the output that it has lost is claimed, because
in a forest nothing claimed leads to another of its variables. So a required constraint finds a method,
unless it is the one with which the pass began: the output that it has lost was held more weakly than
some constraint insists, and so another output of it still is. And the sweep comes back to nothing that
is claimed, because it would have gone round a cycle.
-/

namespace DeltaBlue

namespace Solver

open Relation

variable {W T : Type}

/-- The enabled constraints form a forest, and every idle one of them but `c` is not required, and
blocked unless it is on the list. -/
structure TidyBut (s : Solver W T) (c : ConstraintId) (todo : List ConstraintId) : Prop where
  /-- The enabled constraints form a forest. -/
  forest : s.Forest
  /-- Required constraints have a method in force. -/
  met : ∀ k, s.Unmet k → k = c
  /-- Idle constraints are blocked. -/
  blocked : ∀ k, s.Idle k → k = c ∨ k ∈ todo ∨ s.Blocked k

/-- The enabled constraints form a forest, and every idle one of them is not required, and blocked
unless it is on the list. -/
structure Tidy (s : Solver W T) (todo : List ConstraintId) : Prop where
  /-- The enabled constraints form a forest. -/
  forest : s.Forest
  /-- Required constraints have a method in force. -/
  met : ∀ k, ¬ s.Unmet k
  /-- Idle constraints are blocked. -/
  blocked : ∀ k, s.Idle k → k ∈ todo ∨ s.Blocked k

/-- At most one variable of the constraint is claimed, and this is held at least as strongly as the
constraint would hold it, which is not as a required one. -/
def Ready (s : Solver W T) (mark : Mark) (d : Definition W T) : Prop :=
  ∀ u ∈ d.vars, s.Claimed mark u → (∀ v ∈ d.vars, s.Claimed mark v → v = u) ∧
    d.walkFrom s.walkAt u ≤ s.walkAt u ∧ d.walkFrom s.walkAt u ≠ .required

/-- `c` is about to be enforced in a pass over a forest. -/
structure Poised (cells : Prop) (s : Solver W T) (mark : Mark) (c : ConstraintId)
    (todo : List ConstraintId) : Prop extends InPass cells s mark c, TidyBut s c todo where
  /-- Only the output that the constraint has lost is claimed of its variables. -/
  ready : ∀ {node}, s.constraintAt? c = some node → s.Ready mark node.definition

variable {s s₁ s₂ s' : Solver W T} {cells : Prop} {c k : ConstraintId} {node : Constraint W T}
  {mark : Mark} {todo : List ConstraintId}

/-- A constraint may be taken from the list to be excused by itself. -/
theorem Tidy.but (h : s.Tidy (c :: todo)) : s.TidyBut c todo where
  forest := h.forest
  met k hk := absurd hk (h.met k)
  blocked k hk := (h.blocked k hk).elim (fun hmem => (List.mem_cons.1 hmem).imp_right .inl)
    fun hb => .inr (.inr hb)

/-- Every idle constraint is blocked but the one that is excused and those on the list. -/
theorem TidyBut.idleBlocked (h : s.TidyBut c todo) : s.IdleBlocked (c :: todo) := by
  intro k hk
  rw [List.mem_cons, or_assoc]
  exact h.blocked k hk

/-- If the constraint is not idle, nothing is to be excused. -/
theorem TidyBut.tidy (h : s.TidyBut c todo) (hidle : ¬ s.Idle c) : s.Tidy todo where
  forest := h.forest
  met k hk := hidle (h.met k hk ▸ hk.idle)
  blocked k hk := (h.blocked k hk).resolve_left fun e => hidle (e ▸ hk)

/-- Whether a graph is tidy is a matter of its constraints and of the walk strengths. -/
theorem TidyBut.congr (h : s.TidyBut c todo) (hc : ∀ k, s'.constraintAt? k = s.constraintAt? k)
    (hv : ∀ v, s'.walkAt v = s.walkAt v) : s'.TidyBut c todo where
  forest := h.forest.of_constraintAt hc
  met k hk := h.met k ((unmet_congr hc).1 hk)
  blocked k hk := (h.blocked k ((idle_congr hc).1 hk)).imp_right (.imp_right (·.congr hc hv))

/-- Whether a graph is tidy is a matter of its constraints and of the walk strengths. -/
theorem Tidy.congr (h : s.Tidy todo) (hc : ∀ k, s'.constraintAt? k = s.constraintAt? k)
    (hv : ∀ v, s'.walkAt v = s.walkAt v) : s'.Tidy todo where
  forest := h.forest.of_constraintAt hc
  met k hk := h.met k ((unmet_congr hc).1 hk)
  blocked := IdleBlocked.congr h.blocked hc hv

/-- Marks have nothing to do with it. -/
theorem TidyBut.marked (h : s.TidyBut c todo) (v : VarId) :
    (s.modifyVariable v fun x => { x with mark := mark }).TidyBut c todo :=
  h.congr (fun _ => rfl) fun u => walkAt_marked u v

/-! ## A constraint whose turn it is -/

/-- Where one variable at most is claimed, one output at most is. -/
theorem Ready.lost {d : Definition W T} (hready : s.Ready mark d) : s.Lost mark d := by
  intro m hm hclaimed
  obtain ⟨hone, hwalk, _⟩ := hready _ (Definition.output_mem_vars hm) hclaimed
  exact ⟨fun m' hm' => hone _ (Definition.output_mem_vars hm'), hwalk⟩

/-- In a forest outputs are apart. -/
theorem Poised.awaiting (hp : s.Poised cells mark c todo) : s.Awaiting cells mark c todo where
  toInPass := hp.toInPass
  apart := hp.forest.apart
  blocked := hp.toTidyBut.idleBlocked
  lost hnode := (hp.ready hnode).lost

/-- A required constraint that finds no method has lost no output in the pass. -/
theorem Ready.unclaimed (h : s.WellFormed) (hnode : s.constraintAt? c = some node)
    (hready : s.Ready mark node.definition)
    (hheld : s.HeldBy mark node.definition.methods node.definition.strength)
    (hreq : node.definition.strength = .required) :
    ∀ u ∈ node.definition.vars, ¬ s.Claimed mark u := by
  intro u hu hclaimed
  obtain ⟨_, _, hne⟩ := hready u hu hclaimed
  -- all outputs are held at the required strength, so the claimed variable would be too
  have hall := hready.lost.held h hnode hheld (Nat.le_refl _)
  have hle : node.definition.strength ≤ node.definition.walkFrom s.walkAt u :=
    Definition.le_walkFrom.2 ⟨Nat.le_refl _, fun m hm _ => hall m hm⟩
  rw [hreq] at hle
  refine hne (Strength.le_antisymm ?_ hle)
  cases node.definition.walkFrom s.walkAt u <;> decide

/-- A graph in which a constraint that is not required has found no method is tidy. -/
theorem Poised.left (hp : s.Poised cells mark c todo) (h : s.WellFormed)
    (hnode : s.constraintAt? c = some node) (hreq : node.definition.strength ≠ .required)
    (hheld : s.HeldBy mark node.definition.methods node.definition.strength)
    (halike : s.Alike s') : s'.Tidy todo where
  forest := hp.forest.of_constraintAt halike.constraintAt
  met k hk := by
    have hk := (unmet_congr halike.constraintAt).1 hk
    obtain rfl := hp.met k hk
    obtain ⟨n, hn, _, _, hreq'⟩ := hk
    obtain rfl := Option.some.inj (hnode.symm.trans hn)
    exact hreq hreq'
  blocked := (hp.awaiting.left h hnode hheld halike).blocked

/-! ## A constraint that has found a method -/

/-- A constraint that is displaced mentions the output that it has lost. -/
theorem Installed.displaced_mentions {i : Nat} {m : Method W T} {x : Variable T}
    (h : s.WellFormed) (hi : Installed s s₁ mark c node i m x) (hk : x.determinedBy = some k) :
    s₁.Mentions k m.output := by
  obtain ⟨n', hn', _⟩ := hi.displaced_idle h hk
  obtain ⟨n, hn, hout⟩ := (h.determined hi.output.1 k).1 hk
  obtain ⟨n₀, hn₀, hdeclared, _⟩ := hi.constraint_of hn'
  obtain rfl := Option.some.inj (hn.symm.trans hn₀)
  exact ⟨n', hn', (Prod.mk.inj hdeclared).1 ▸ Constraint.mem_vars_of_output? hout⟩

section Installed

variable {i : Nat} {m : Method W T} {x : Variable T}

section

variable (hforest : s.Forest) (hpass : s.InPass cells mark c) (h : s.WellFormed)
  (hi : Installed s s₁ mark c node i m x)
include hforest hpass h hi

/-- In a pass over a forest a sweep does not come back to a claimed variable. -/
theorem Forest.not_claimed_of_reaches {a : VarId} (hreach : s₁.Reaches m.output a) :
    ¬ s₁.Claimed mark a := by
  intro hclaimed
  obtain ⟨u, hpath, hlast⟩ := hpass.leads_output hi h hclaimed
  -- the claimed variable leads to the output, so the way would go round a cycle
  have hback : s₁.Reaches m.output u :=
    hreach.trans (ReflTransGen.mono (fun _ _ hstep => And.left hstep) _ _ hpath)
  exact (hforest.installed hi).not_reaches_of_feeds (h.installed hi) hlast hback

/-- A constraint that is displaced in a pass over a forest has only the output that it has lost
claimed. -/
theorem Forest.claimed_iff (hk : x.determinedBy = some k) {u : VarId} (hu : s₁.Mentions k u)
    (hr : s₁.Repaints s₂) :
    (s₂.modifyVariable m.output fun y => { y with mark := mark }).Claimed mark u ↔ u = m.output := by
  rw [claimed_marked]
  constructor
  · rintro ⟨_, rfl | hclaimed⟩
    · rfl
    · -- from what is claimed a way leads to the output, and so to another variable of the constraint
      obtain ⟨w, hpath, hlast⟩ := hpass.leads_output hi h (hr.claimed.1 hclaimed)
      refine (hforest.installed hi).eq_of_idle (h.installed hi) (hi.displaced_idle h hk) hu
        (hi.displaced_mentions h hk) ?_
      exact (ReflTransGen.mono (fun _ _ hstep => And.left hstep) _ _ hpath).tail hlast
  · rintro rfl
    refine ⟨?_, .inl rfl⟩
    rw [hr.live, hi.variableAt, hi.output.1]
    rfl

end

variable (hp : s.Poised cells mark c todo) (h : s.WellFormed)
  (hi : Installed s s₁ mark c node i m x)
include hp h hi

variable (hr : s₁.Repaints s₂) (hrest₂ : s₂.Rest cells)

include hr hrest₂ in
/-- Only the displaced constraint may be unmet, or idle without being blocked. -/
theorem Poised.tidyBut (hk : ∀ j, x.determinedBy = some j → j = k) : s₂.TidyBut k todo where
  forest := (hp.forest.installed hi).of_constraintAt hr.constraintAt
  met j hj := by
    rcases hi.unmet ((unmet_congr hr.constraintAt).1 hj) with hdis | ⟨hunmet, hne⟩
    · exact hk j hdis
    · exact absurd (hp.met j hunmet) hne
  blocked j hj := by
    rw [← or_assoc, ← List.mem_cons]
    exact hp.awaiting.idleBlocked h hi hr hrest₂
      (fun j hj => List.mem_cons.2 (hj.imp_left (hk j))) j hj

include hr hrest₂ in
/-- A constraint that is displaced is about to be enforced in the same pass. -/
theorem Poised.displaced (hpasses : s₁.passes = s.passes) (hk : x.determinedBy = some k) :
    (s₂.modifyVariable m.output fun y => { y with mark := mark }).Poised cells mark k todo where
  toInPass := hp.toInPass.displaced hi h hpasses hr hrest₂ hk
  toTidyBut :=
    (hp.tidyBut h hi hr hrest₂ fun j hj => Option.some.inj (hj.symm.trans hk)).marked m.output
  ready := by
    intro n' hn' u hu hclaimed
    have hn₂ : s₂.constraintAt? k = some n' := hn'
    have hn₁ : s₁.constraintAt? k = some n' := (hr.constraintAt k).symm.trans hn₂
    -- in a forest the output that was lost is the only claimed variable of the constraint
    have honly : ∀ v ∈ n'.definition.vars, (s₂.modifyVariable m.output fun y =>
        { y with mark := mark }).Claimed mark v ↔ v = m.output :=
      fun v hv => hp.forest.claimed_iff hp.toInPass h hi hk ⟨n', hn₁, hv⟩ hr
    obtain rfl := (honly u hu).1 hclaimed
    have hwalk := hp.awaiting.walkFrom_le h hi hr hrest₂ hk hn₂
    have hsame : (s₂.modifyVariable m.output fun y => { y with mark := mark }).walkAt =
        s₂.walkAt := funext fun v => walkAt_marked v m.output
    rw [hsame]
    refine ⟨fun v hv hv' => (honly v hv).1 hv', Nat.le_trans hwalk ?_, fun he => ?_⟩
    · rw [← walkAt_eq hi.output.1]
      exact hi.walkAt_le h hp.toRest hr hrest₂ (hp.awaiting.held_of_installed h hi) m.output
    · -- the output was held more weakly than some constraint insists
      rw [he] at hwalk
      have hlt := Nat.lt_of_le_of_lt hwalk hi.output.2.2
      cases hstrength : node.definition.strength <;> rw [hstrength] at hlt <;> revert hlt <;> decide

end Installed

/-! ## A constraint that leaves or enters the graph -/

/-- When a constraint has left the graph, the idle constraints downstream of its output may be idle
without being blocked, and no others. -/
theorem TidyBut.vacated (ht : s.TidyBut c []) (h : s.Sound cells)
    (hv : Vacated cells s s₁ s₂ c node todo) (hlt : s₂.passes < 2 ^ 64) : s₂.Tidy todo where
  forest := (ht.forest.detached hv.detached).of_constraintAt hv.repaints.constraintAt
  met k hk := by
    have hk := (unmet_congr hv.repaints.constraintAt).1 hk
    exact (hv.detached.idle hk.idle).1 (ht.met k (hv.detached.unmet hk))
  blocked := ht.idleBlocked.vacated h hv hlt

/-- A constraint that enters a tidy graph may be idle without being blocked, and no other. -/
theorem Tidy.entered (ht : s.Tidy []) (he : Entered s s' c node) (hforest : s.ForestWith c) :
    s'.TidyBut c [] where
  forest := hforest.entered he
  met k hk := (he.unmet hk).resolve_right (ht.met k)
  blocked k hk := by
    rw [← or_assoc, ← List.mem_cons]
    exact IdleBlocked.entered ht.blocked he k hk

/-- What is done aside leaves a tidy graph tidy. -/
theorem Tidy.aside (ht : s.Tidy todo) (ha : s.Aside s') : s'.Tidy todo where
  forest := ht.forest.aside ha
  met k hk := ht.met k (ha.unmet.1 hk)
  blocked := IdleBlocked.aside ht.blocked ha

/-- The empty graph is tidy. -/
theorem tidy_empty (config : Config) : (empty config : Solver W T).Tidy [] := by
  refine ⟨forest_empty config, ?_, idleBlocked_empty config⟩
  rintro k ⟨n, hn, _⟩
  simp at hn

end Solver

end DeltaBlue
