import Mathlib.Data.List.Induction
import Mathlib.Order.WellFounded
import DeltaBlue.Proofs.Runs

/-!
# Bookkeeping from scratch

Which methods are in force fixes the walk strengths and the constancies of all variables. They are
what comes out when one starts with nothing held and gives each output what the equations of its
constraint say, taking the constraints in a dependency order, one that lists no constraint before
another whose output it computes from (`Solver.fromScratch`). A graph without cycles has such an
order, and whatever satisfies the equations agrees with the evaluation along it.

So the flags that the walks of propagation maintain from call to call can be checked against an
evaluation that knows nothing of calls and passes.
-/

namespace DeltaBlue

/-- A walk strength and a constancy for every variable. -/
structure Flags where
  /-- The walk strengths. -/
  walk : VarId → Strength
  /-- The constancies. -/
  constant : VarId → Bool

/-- Nothing is held, and everything is constant. -/
def Flags.unheld : Flags := ⟨fun _ => .weakest, fun _ => true⟩

namespace Solver

variable {W T : Type}

/-- The flags that the variables carry. -/
def flags (s : Solver W T) : Flags := ⟨s.walkAt, s.constantAt⟩

/-- The flags satisfy the equations for the methods in force. -/
structure Balanced (s : Solver W T) (f : Flags) : Prop where
  /-- A variable that no constraint determines is not held. -/
  undetermined : ∀ v x, s.variableAt? v = some x → x.determinedBy = none →
    f.walk v = .weakest ∧ f.constant v = true
  /-- The output of a constraint has what the constraint gives to it. -/
  determined : ∀ c node o, s.constraintAt? c = some node → node.output? = some o →
    f.walk o = node.definition.walkFrom f.walk o ∧
    f.constant o = node.definition.constantFrom f.constant o

/-- Give the output of a constraint what the constraint says. -/
def evaluate (s : Solver W T) (f : Flags) (c : ConstraintId) : Flags :=
  match s.constraintAt? c with
  | none => f
  | some node =>
    match node.output? with
    | none => f
    | some o =>
      { walk := fun v => if v = o then node.definition.walkFrom f.walk o else f.walk v
        constant := fun v =>
          if v = o then node.definition.constantFrom f.constant o else f.constant v }

/-- Evaluate constraints in the order of a list, beginning with nothing held. -/
def fromScratch (s : Solver W T) (order : List ConstraintId) : Flags :=
  order.foldl s.evaluate .unheld

/-- `k` computes something from the variable that `j` determines. -/
def DependsOn (s : Solver W T) (k j : ConstraintId) : Prop :=
  ∃ v w, s.Reads k v w ∧ s.Determines j v

/-- Every constraint with a method in force is listed, and none before another that it depends
on. -/
structure DependencyOrder (s : Solver W T) (order : List ConstraintId) : Prop where
  /-- Nothing is left out. -/
  complete : ∀ k w, s.Determines k w → k ∈ order
  /-- What a constraint depends on is not listed after it. -/
  sorted : order.Pairwise fun k j => ¬ s.DependsOn k j

variable {s : Solver W T} {f : Flags} {order : List ConstraintId} {c k j : ConstraintId}
  {node : Constraint W T} {o v w : VarId}

/-! ## Evaluation in a dependency order -/

/-- The output of a constraint is given what the constraint says. -/
theorem evaluate_output (hnode : s.constraintAt? c = some node) (hout : node.output? = some o) :
    (s.evaluate f c).walk o = node.definition.walkFrom f.walk o ∧
    (s.evaluate f c).constant o = node.definition.constantFrom f.constant o := by
  unfold evaluate
  simp only [hnode, hout, if_true, and_self]

/-- Evaluating a constraint changes the flags of nothing but its output. -/
theorem evaluate_other (h : ¬ s.Determines c v) :
    (s.evaluate f c).walk v = f.walk v ∧ (s.evaluate f c).constant v = f.constant v := by
  unfold evaluate
  split
  · exact ⟨rfl, rfl⟩
  · next node hnode =>
    split
    · exact ⟨rfl, rfl⟩
    · next o hout =>
      have hne : v ≠ o := by
        rintro rfl
        exact h ⟨node, hnode, hout⟩
      simp only [if_neg hne, and_self]

/-- A constraint does not depend on itself. -/
theorem not_dependsOn_self : ¬ s.DependsOn k k := by
  rintro ⟨v, w, hreads, hdet⟩
  have hw := hreads.determines.unique hdet
  obtain ⟨_, _, _, _, hne⟩ := hreads
  exact hne hw.symm

/-- In a dependency order, what a constraint depends on is listed before it. -/
theorem DependencyOrder.before {pre post : List ConstraintId}
    (ho : s.DependencyOrder (pre ++ k :: post)) (h : s.DependsOn k j) : j ∈ pre := by
  obtain ⟨v, w, hreads, hdet⟩ := h
  rcases List.mem_append.1 (ho.complete j v hdet) with hpre | hmem
  · exact hpre
  · -- it is listed somewhere, and neither at `k` nor after it
    have hlater := (List.pairwise_cons.1 (List.pairwise_append.1 ho.sorted).2.1).1
    rcases List.mem_cons.1 hmem with rfl | hpost
    · exact absurd ⟨v, w, hreads, hdet⟩ not_dependsOn_self
    · exact absurd ⟨v, w, hreads, hdet⟩ (hlater j hpost)

/-- Along a dependency order, a variable whose determiner has been passed has the flags that any
solution of the equations gives to it. -/
theorem Balanced.fromScratch_eq (hf : s.Balanced f) (hwf : s.WellFormed)
    {pre post : List ConstraintId} (ho : s.DependencyOrder (pre ++ post))
    (hv : (s.variableAt? v).isSome) (hpassed : ∀ k, s.Determines k v → k ∈ pre) :
    (s.fromScratch pre).walk v = f.walk v ∧ (s.fromScratch pre).constant v = f.constant v := by
  -- from the end of the order: the last constraint fixes its output, and all others were passed
  -- before
  induction pre using List.reverseRecOn generalizing v post with
  | nil =>
    obtain ⟨x, hx⟩ := Option.isSome_iff_exists.1 hv
    -- nothing has been passed, so nothing determines the variable
    have hnone : x.determinedBy = none := by
      refine Option.eq_none_iff_forall_ne_some.2 fun c hc => ?_
      exact absurd (hpassed c ((hwf.determined hx c).1 hc)) List.not_mem_nil
    obtain ⟨hwalk, hconstant⟩ := hf.undetermined v x hx hnone
    exact ⟨hwalk.symm, hconstant.symm⟩
  | append_singleton pre k ih =>
    rw [List.append_assoc] at ho
    have hfold : s.fromScratch (pre ++ [k]) = s.evaluate (s.fromScratch pre) k := by
      rw [fromScratch, List.foldl_append]
      rfl
    rw [hfold]
    by_cases hk : s.Determines k v
    · -- the variables that `k` computes from have their flags already
      obtain ⟨node, hnode, hout⟩ := hk
      have hinputs : ∀ u ∈ node.definition.vars, u ≠ v →
          (s.fromScratch pre).walk u = f.walk u ∧
          (s.fromScratch pre).constant u = f.constant u := by
        intro u hu hne
        refine ih ho (hwf.mentioned hnode u hu) fun j hj => ?_
        exact ho.before ⟨u, v, ⟨node, hnode, hout, hu, hne⟩, hj⟩
      obtain ⟨hwalk, hconstant⟩ := evaluate_output (f := s.fromScratch pre) hnode hout
      obtain ⟨hwalk', hconstant'⟩ := hf.determined k node v hnode hout
      rw [hwalk, hconstant, hwalk', hconstant']
      exact ⟨Definition.walkFrom_congr fun u hu hne => (hinputs u hu hne).1,
        Definition.constantFrom_congr fun u hu hne => (hinputs u hu hne).2⟩
    · -- `k` leaves the variable alone, so its determiner was passed earlier
      obtain ⟨hwalk, hconstant⟩ := evaluate_other (f := s.fromScratch pre) hk
      rw [hwalk, hconstant]
      refine ih ho hv fun j hj => ?_
      rcases List.mem_append.1 (hpassed j hj) with hpre | hlast
      · exact hpre
      · rw [List.mem_singleton.1 hlast] at hj
        exact absurd hj hk

/-- Any solution of the equations is what the evaluation in a dependency order gives. -/
theorem Balanced.eq_fromScratch (hf : s.Balanced f) (hwf : s.WellFormed)
    (ho : s.DependencyOrder order) (hv : (s.variableAt? v).isSome) :
    (s.fromScratch order).walk v = f.walk v ∧ (s.fromScratch order).constant v = f.constant v := by
  rw [← List.append_nil order] at ho
  refine hf.fromScratch_eq hwf ho hv fun k hk => ?_
  simpa using ho.complete k v hk

/-! ## Dependency orders exist -/

/-- Constraints of an acyclic graph can be listed so that none stands before one that it depends
on. -/
theorem Acyclic.exists_sorted (hacyclic : s.Acyclic) (cs : List ConstraintId) :
    ∃ order : List ConstraintId, (∀ k, k ∈ order ↔ k ∈ cs) ∧
      order.Pairwise fun k j => ¬ s.DependsOn k j := by
  have hwf : WellFounded fun w v => s.Feeds v w := ⟨hacyclic⟩
  -- by the length of the list, from the end: the last is one whose output no other reads
  induction hn : cs.length using Nat.strong_induction_on generalizing cs with
  | _ n ih =>
  by_cases hdet : ∃ w, ∃ k ∈ cs, s.Determines k w
  · obtain ⟨w, ⟨k, hk, hkw⟩, hlast⟩ := hwf.has_min {w | ∃ k ∈ cs, s.Determines k w} hdet
    have hlt : (cs.filter (· ≠ k)).length < n := by
      rw [← hn]
      refine Nat.lt_of_le_of_ne (List.length_filter_le _ _) fun he => ?_
      have hall := List.length_filter_eq_length_iff.1 he k hk
      simp at hall
    obtain ⟨order, hmem, hsorted⟩ := ih _ hlt (cs.filter (· ≠ k)) rfl
    refine ⟨order ++ [k], fun j => ?_, ?_⟩
    · rw [List.mem_append, hmem, List.mem_filter, List.mem_singleton]
      by_cases hj : j = k
      · simp [hj, hk]
      · simp [hj]
    · refine List.pairwise_append.2 ⟨hsorted, List.pairwise_singleton _ _, fun j hj i hi => ?_⟩
      rw [List.mem_singleton.1 hi]
      rintro ⟨v, u, hreads, hv⟩
      obtain rfl := hkw.unique hv
      exact hlast u ⟨j, (List.mem_filter.1 ((hmem j).1 hj)).1, hreads.determines⟩ hreads.feeds
  · -- no constraint of the list determines anything, so none depends on another
    refine ⟨cs, fun k => Iff.rfl, List.Pairwise.imp_of_mem ?_ (List.pairwise_of_forall
      (R := fun _ _ => True) fun _ _ => trivial)⟩
    rintro k j hk _ _ ⟨v, w, hreads, _⟩
    exact hdet ⟨w, k, hk, hreads.determines⟩

/-- An acyclic graph has a dependency order. -/
theorem Acyclic.exists_dependencyOrder (h : s.Acyclic) : ∃ order, s.DependencyOrder order := by
  obtain ⟨order, hmem, hsorted⟩ := h.exists_sorted s.constraints.keys
  refine ⟨order, fun k w ⟨node, hnode, _⟩ => (hmem k).2 ?_, hsorted⟩
  exact List.mem_map.2 ⟨(k, node), Arena.mem_toList.2 hnode, rfl⟩

end Solver

/-! ## The flags of a graph at rest -/

namespace Solver

variable {W T : Type} {s : Solver W T} {cells : Prop}

/-- At rest the flags that the variables carry satisfy the equations. -/
theorem Rest.balanced (h : s.Rest cells) : s.Balanced s.flags where
  undetermined v x hx hnone := by
    simp only [flags, walkAt_eq hx, constantAt_eq hx]
    exact h.released hx hnone
  determined c node o hnode hout := by
    obtain ⟨method, hmethod, rfl⟩ := Option.map_eq_some_iff.1 hout
    obtain ⟨hwalk, hconstant, _⟩ := h.settled c hnode hmethod
    exact ⟨hwalk, hconstant⟩

end Solver

namespace Run

variable {W T : Type} {own : Prop} {config : Config} {plans : List (Plan × Nat)}
  {m : Machine W T}

/-- After every call the walk strengths and the constancies satisfy the equations for the methods in
force: a variable that no constraint determines is held at the weakest strength and is constant; a
variable that is determined has the weakest of the constraint's strength and the walk strengths of
the outputs of its other methods, and is constant if the constraint is not volatile and its other
variables are constant. There is a dependency order, evaluating from scratch along any such order
gives these flags, and nothing else satisfies the equations. -/
theorem flags_eq_fromScratch (h : Run own config plans m) (hpasses : m.solver.passes < 2 ^ 64) :
    (∀ v x, m.solver.variableAt? v = some x → x.determinedBy = none →
      x.walkStrength = .weakest ∧ x.constant = true) ∧
    (∀ v x c, m.solver.variableAt? v = some x → x.determinedBy = some c →
      ∃ node, m.solver.constraintAt? c = some node ∧
        x.walkStrength = node.definition.walkFrom m.solver.walkAt v ∧
        (x.constant = true ↔ node.definition.volatile = false ∧
          ∀ u ∈ node.definition.vars, u ≠ v → m.solver.constantAt u = true)) ∧
    (∃ order, m.solver.DependencyOrder order) ∧
    (∀ order, m.solver.DependencyOrder order → ∀ v x, m.solver.variableAt? v = some x →
      (m.solver.fromScratch order).walk v = x.walkStrength ∧
      (m.solver.fromScratch order).constant v = x.constant) ∧
    (∀ f, m.solver.Balanced f → ∀ v x, m.solver.variableAt? v = some x →
      f.walk v = x.walkStrength ∧ f.constant v = x.constant) := by
  have hwf := h.sound.1.toWellFormed
  have hrest := h.sound.1.rest hpasses
  obtain ⟨order, horder⟩ := hrest.acyclic.exists_dependencyOrder
  have hscratch : ∀ order, m.solver.DependencyOrder order → ∀ v x,
      m.solver.variableAt? v = some x →
      (m.solver.fromScratch order).walk v = x.walkStrength ∧
      (m.solver.fromScratch order).constant v = x.constant := by
    intro order horder v x hx
    rw [← Solver.walkAt_eq hx, ← Solver.constantAt_eq hx]
    exact hrest.balanced.eq_fromScratch hwf horder (by rw [hx]; rfl)
  refine ⟨fun v x hx hnone => hrest.released hx hnone, fun v x c hx hc => ?_, ⟨order, horder⟩,
    hscratch, fun f hf v x hx => ?_⟩
  · obtain ⟨node, hnode, hout⟩ := (hwf.determined hx c).1 hc
    obtain ⟨hwalk, hconstant⟩ := hrest.balanced.determined c node v hnode hout
    refine ⟨node, hnode, ?_, ?_⟩
    · rw [← Solver.walkAt_eq hx]
      exact hwalk
    · rw [← Solver.constantAt_eq hx, ← Definition.constantFrom_eq_true_iff]
      exact Bool.eq_iff_iff.1 hconstant
  · -- both are what the evaluation along the order gives
    obtain ⟨hwalk, hconstant⟩ := hf.eq_fromScratch hwf horder (v := v) (by rw [hx]; rfl)
    obtain ⟨hwalk', hconstant'⟩ := hscratch order horder v x hx
    exact ⟨hwalk.symm.trans hwalk', hconstant.symm.trans hconstant'⟩

/-- The flags are those of the evaluation from scratch after one variable was held weakly and a
second one was made a copy of it. -/
theorem flags_eq_fromScratch_copy : ∃ m : Machine Unit Nat,
    Call.runAll 9 [.newVariable 5, .newUnassigned, .stay ⟨0, 0⟩ .weak,
      .constrain (.ofMethod .strong none (.compute ⟨1, 0⟩ [⟨0, 0⟩] .first)
        ⟨by decide, by decide⟩)] ⟨.empty {}, (), []⟩ = some m ∧
    m.solver.passes < 2 ^ 64 ∧
    (∃ x, m.solver.variableAt? ⟨1, 0⟩ = some x ∧ x.walkStrength = .strong) ∧
    ∀ order, m.solver.DependencyOrder order → ∀ v x, m.solver.variableAt? v = some x →
      (m.solver.fromScratch order).walk v = x.walkStrength ∧
      (m.solver.fromScratch order).constant v = x.constant := by
  have hany : (Call.runAll (W := Unit) (T := Nat) 9 [.newVariable 5, .newUnassigned,
      .stay ⟨0, 0⟩ .weak, .constrain (.ofMethod .strong none (.compute ⟨1, 0⟩ [⟨0, 0⟩] .first)
        ⟨by decide, by decide⟩)] ⟨.empty {}, (), []⟩).any (fun m => m.solver.passes < 2 ^ 64 ∧
          (m.solver.variableAt? ⟨1, 0⟩).any (·.walkStrength = .strong)) = true := by
    decide
  obtain ⟨m, hm, hfacts⟩ := (Option.any_eq_true _ _).1 hany
  have hstart : Run False {} [] (⟨.empty {}, (), []⟩ : Machine Unit Nat) := .start ()
  obtain ⟨plans, h⟩ := runAll hstart (by decide) hm
  simp only [decide_eq_true_eq, Option.any_eq_true] at hfacts
  exact ⟨m, hm, hfacts.1, hfacts.2, (flags_eq_fromScratch h hfacts.1).2.2.2.1⟩

end Run

end DeltaBlue
