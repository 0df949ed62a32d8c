import DeltaBlue.Proofs.Circling
import DeltaBlue.Proofs.Transition

/-!
# How often a cycle can be broken

Breaking a cycle calls for the adding of constraints, which may close further cycles. The `weight`
of a graph bounds how often this happens, on any graph, in order or not. It counts the constraints
that are involved, being enabled, having a method in force or being about to be enforced, and the
variables whose record of a determiner is stale. Adding does not increase it: a displaced constraint
is involved already, or else it was recorded as the determiner of the variable that it is displaced
from, and this stale record disappears. Breaking a cycle decreases it, for the constraint that closes
the cycle is involved before and not afterwards.
-/

namespace DeltaBlue

namespace Solver

variable {W T : Type}

/-- The variable records the constraint as its determiner. -/
def Records (s : Solver W T) (v : VarId) (k : ConstraintId) : Prop :=
  ∃ x, s.variableAt? v = some x ∧ x.determinedBy = some k

/-- The constraints that are enabled, have a method in force, or are about to be enforced. -/
def Involved (s : Solver W T) (next : Option ConstraintId) : Set ConstraintId :=
  {k | s.Enabled k ∨ (∃ v, s.Determines k v) ∨ (next = some k ∧ (s.constraintAt? k).isSome)}

/-- The variables that record as their determiner a constraint that does not determine them. -/
def Stale (s : Solver W T) : Set VarId := {v | ∃ k, s.Records v k ∧ ¬ s.Determines k v}

/-- A bound on the number of cycles that can be broken. -/
noncomputable def weight (s : Solver W T) (next : Option ConstraintId) : Nat :=
  (s.Involved next).ncard + s.Stale.ncard

variable {s s' : Solver W T} {next next' displaced : Option ConstraintId} {c : ConstraintId}
  {o : VarId}

/-- Involved constraints are live, so there are finitely many. -/
theorem finite_involved (s : Solver W T) (next : Option ConstraintId) :
    (s.Involved next).Finite := by
  refine s.finite_constraints.subset ?_
  rintro k (⟨node, hnode, _⟩ | ⟨_, node, hnode, _⟩ | ⟨_, hlive⟩)
  · exact Option.isSome_iff_exists.2 ⟨node, hnode⟩
  · exact Option.isSome_iff_exists.2 ⟨node, hnode⟩
  · exact hlive

/-- Variables with a stale record are live, so there are finitely many. -/
theorem finite_stale (s : Solver W T) : s.Stale.Finite := by
  refine s.finite_variables.subset ?_
  rintro v ⟨_, ⟨x, hx, _⟩, _⟩
  exact Option.isSome_iff_exists.2 ⟨x, hx⟩

/-- If nothing becomes involved and no record becomes stale, the weight does not increase. -/
theorem weight_le (hinvolved : s'.Involved next' ⊆ s.Involved next) (hstale : s'.Stale ⊆ s.Stale) :
    s'.weight next' ≤ s.weight next :=
  Nat.add_le_add (Set.ncard_le_ncard hinvolved (s.finite_involved next))
    (Set.ncard_le_ncard hstale s.finite_stale)

/-- A constraint that is enabled is counted already. -/
theorem weight_enabled (h : s.Enabled c) : s.weight (some c) = s.weight none := by
  unfold weight
  congr 2
  ext k
  constructor
  · rintro (hk | hk | ⟨hk, _⟩)
    · exact .inl hk
    · exact .inr (.inl hk)
    · obtain rfl := Option.some.inj hk
      exact .inl h
  · rintro (hk | hk | ⟨hk, _⟩)
    · exact .inl hk
    · exact .inr (.inl hk)
    · cases hk

/-- A constraint that determines a variable has weight. -/
theorem weight_pos (h : s.Determines c o) : 0 < s.weight next := by
  refine Nat.lt_of_lt_of_le ?_ (Nat.le_add_right _ _)
  exact (Set.ncard_pos (s.finite_involved next)).2 ⟨c, .inr (.inl ⟨o, h⟩)⟩

/-- Fewer constraints are involved if none is about to be enforced. -/
theorem weight_none_le (s : Solver W T) (next : Option ConstraintId) :
    s.weight none ≤ s.weight next := by
  refine weight_le ?_ (Set.Subset.refl _)
  rintro k (hk | hk | ⟨hk, _⟩)
  · exact .inl hk
  · exact .inr (.inl hk)
  · cases hk

/-- The constraints are the same, and the variables record the same determiners. -/
structure SameForce (s s' : Solver W T) : Prop where
  /-- The constraints are the same. -/
  constraintAt : ∀ k, s'.constraintAt? k = s.constraintAt? k
  /-- The records are the same. -/
  determinedBy : ∀ v, (s'.variableAt? v).map Variable.determinedBy =
    (s.variableAt? v).map Variable.determinedBy

/-- What is the same after each of two operations is the same after both. -/
theorem SameForce.transitive : SolveM.Transitive (SameForce (W := W) (T := T)) where
  refl _ := ⟨fun _ => rfl, fun _ => rfl⟩
  trans h h' :=
    { constraintAt := fun k => (h'.constraintAt k).trans (h.constraintAt k)
      determinedBy := fun v => (h'.determinedBy v).trans (h.determinedBy v) }

/-- Repainting changes cells and strengths only. -/
theorem Repaints.sameForce (h : s.Repaints s') : s.SameForce s' where
  constraintAt := h.constraintAt
  determinedBy v := by
    have hshape := congrArg (Option.map fun p => p.2.2.1) (h.shape v)
    rw [Option.map_map, Option.map_map] at hshape
    exact hshape

/-- A change of a variable that keeps the record of its determiner. -/
theorem sameForce_modifyVariable {f : Variable T → Variable T}
    (hf : ∀ x, (f x).determinedBy = x.determinedBy) (v : VarId) (s : Solver W T) :
    s.SameForce (s.modifyVariable v f) where
  constraintAt _ := rfl
  determinedBy u := by
    rw [variableAt?_modifyVariable]
    by_cases hu : u = v
    · rw [if_pos hu, hu, Option.map_map]
      congr 1
      funext x
      exact hf x
    · rw [if_neg hu]

section

variable (h : s.SameForce s')
include h

/-- The constraints determine the same variables. -/
theorem SameForce.determines {k : ConstraintId} {v : VarId} :
    s'.Determines k v ↔ s.Determines k v := by
  unfold Determines
  rw [h.constraintAt]

/-- The same constraints are enabled. -/
theorem SameForce.enabled {k : ConstraintId} : s'.Enabled k ↔ s.Enabled k := by
  unfold Enabled
  rw [h.constraintAt]

/-- The variables record the same determiners. -/
theorem SameForce.records {k : ConstraintId} {v : VarId} : s'.Records v k ↔ s.Records v k := by
  have hiff : ∀ s : Solver W T, s.Records v k ↔
      (s.variableAt? v).map Variable.determinedBy = some (some k) := fun s =>
    Option.map_eq_some_iff.symm
  rw [hiff, hiff, h.determinedBy]

/-- The weight is the same. -/
theorem SameForce.weight_eq : s'.weight next = s.weight next := by
  unfold weight Involved Stale
  simp only [h.enabled, h.determines, h.records, h.constraintAt]

end

/-! ## Moving methods into force -/

section

variable {node : Constraint W T} {i : Option Nat} {k : ConstraintId} {v : VarId}

/-- A constraint that is given a method determines its output, and nothing else changes. -/
theorem determines_setEnforcing (hnode : s.constraintAt? c = some node) :
    (s.modifyConstraint c fun x => { x with enforcing := i }).Determines k v ↔
      if k = c then (i.bind node.definition.method?).map Method.output = some v
      else s.Determines k v := by
  unfold Determines
  rw [constraintAt?_modifyConstraint]
  by_cases hk : k = c
  · rw [if_pos hk, if_pos hk, hnode]
    constructor
    · rintro ⟨node', hnode', hout⟩
      obtain rfl := Option.some.inj hnode'
      exact hout
    · intro hout
      exact ⟨_, rfl, hout⟩
  · rw [if_neg hk, if_neg hk]

/-- Giving a method to a constraint enables none. -/
theorem enabled_setEnforcing :
    (s.modifyConstraint c fun x => { x with enforcing := i }).Enabled k ↔ s.Enabled k := by
  unfold Enabled
  rw [constraintAt?_modifyConstraint]
  by_cases hk : k = c
  · rw [if_pos hk, hk]
    constructor
    · rintro ⟨node, hnode, hen⟩
      obtain ⟨x, hx, rfl⟩ := Option.map_eq_some_iff.1 hnode
      exact ⟨x, hx, hen⟩
    · rintro ⟨x, hx, hen⟩
      exact ⟨{ x with enforcing := i }, by rw [hx]; rfl, hen⟩
  · rw [if_neg hk]

/-- Giving a method to a constraint that was about to be enforced does not increase the weight. -/
theorem weight_setEnforcing (hnode : s.constraintAt? c = some node)
    (hidle : ∀ v, ¬ s.Determines c v) :
    (s.modifyConstraint c fun x => { x with enforcing := i }).weight none ≤ s.weight (some c) := by
  refine weight_le ?_ ?_
  · rintro k (hk | ⟨v, hk⟩ | ⟨hk, _⟩)
    · exact .inl (enabled_setEnforcing.1 hk)
    · rw [determines_setEnforcing hnode] at hk
      -- the constraint may have gained an output, but it was counted as the next to be enforced
      by_cases hkc : k = c
      · exact .inr (.inr ⟨congrArg some hkc.symm, by rw [hkc, hnode]; rfl⟩)
      · rw [if_neg hkc] at hk
        exact .inr (.inl ⟨v, hk⟩)
    · cases hk
  · rintro v ⟨k, hrecords, hnot⟩
    refine ⟨k, hrecords, fun hdet => hnot ?_⟩
    rw [determines_setEnforcing hnode, if_neg]
    · exact hdet
    · rintro rfl
      exact hidle v hdet

end

/-- `c`, which had no method in force, has seized `o` from the constraint that `o` recorded as its
determiner, if there was one. -/
structure Seizes (s s' : Solver W T) (c : ConstraintId) (o : VarId)
    (displaced : Option ConstraintId) : Prop where
  /-- The constraint exists. -/
  live : (s.constraintAt? c).isSome
  /-- The constraint had no method in force. -/
  idle : ∀ v, ¬ s.Determines c v
  /-- The constraint that was displaced. -/
  before : ∀ k, displaced = some k → s.Records o k
  /-- No constraint was enabled. -/
  enabled : ∀ k, s'.Enabled k → s.Enabled k
  /-- What the constraints determine afterwards. -/
  determines : ∀ k v, s'.Determines k v ↔
    displaced ≠ some k ∧ if k = c then v = o else s.Determines k v
  /-- What the variables record afterwards. -/
  records : ∀ v k, s'.Records v k ↔ if v = o then k = c else s.Records v k

namespace Seizes

/-- A record that is stale afterwards was stale before, or is the one of a variable that the
displaced constraint determined. -/
theorem stale (h : Seizes s s' c o displaced) {v : VarId} (hv : v ∈ s'.Stale) :
    (v = o ∧ displaced = some c) ∨ (v ≠ o ∧
      (v ∈ s.Stale ∨ ∃ k, displaced = some k ∧ s.Determines k v)) := by
  obtain ⟨k, hrecords, hnot⟩ := hv
  rw [h.records] at hrecords
  rw [h.determines] at hnot
  -- the seized variable records `c` now; every other record is the one from before
  by_cases hvo : v = o
  · rw [if_pos hvo] at hrecords
    subst hrecords
    rw [if_pos rfl] at hnot
    by_cases hd : displaced = some k
    · exact .inl ⟨hvo, hd⟩
    · exact absurd ⟨hd, hvo⟩ hnot
  · rw [if_neg hvo] at hrecords
    refine .inr ⟨hvo, ?_⟩
    by_cases hdet : s.Determines k v
    · have hk : k ≠ c := fun e => h.idle v (e ▸ hdet)
      rw [if_neg hk] at hnot
      by_cases hd : displaced = some k
      · exact .inr ⟨k, hd, hdet⟩
      · exact absurd ⟨hd, hdet⟩ hnot
    · exact .inl ⟨k, hrecords, hdet⟩

/-- What is involved afterwards was involved before, apart from the displaced constraint. -/
theorem involved (h : Seizes s s' c o displaced) :
    ∀ k ∈ s'.Involved displaced, k ∈ s.Involved (some c) ∨ displaced = some k := by
  rintro k (hk | ⟨v, hk⟩ | ⟨hk, _⟩)
  · exact .inl (.inl (h.enabled k hk))
  · rw [h.determines] at hk
    by_cases hkc : k = c
    · exact .inl (.inr (.inr ⟨congrArg some hkc.symm, hkc ▸ h.live⟩))
    · rw [if_neg hkc] at hk
      exact .inl (.inr (.inl ⟨v, hk.2⟩))
  · exact .inr hk

/-- Nothing was displaced. -/
theorem weight_none (h : Seizes s s' c o none) : s'.weight none ≤ s.weight (some c) := by
  refine weight_le (fun k hk => (h.involved k hk).resolve_right nofun) fun v hv => ?_
  rcases h.stale hv with ⟨_, hd⟩ | ⟨_, hold | ⟨_, hd, _⟩⟩
  · cases hd
  · exact hold
  · cases hd

/-- The displaced constraint was not involved: the record of it was stale and disappears. -/
theorem weight_of_not_involved {k : ConstraintId} (h : Seizes s s' c o (some k))
    (hk : k ∉ s.Involved (some c)) : s'.weight (some k) ≤ s.weight (some c) := by
  have hkc : k ≠ c := by
    rintro rfl
    exact hk (.inr (.inr ⟨rfl, h.live⟩))
  have hdet : ∀ v, ¬ s.Determines k v := fun v hv => hk (.inr (.inl ⟨v, hv⟩))
  -- one constraint more is involved, and one stale record less is left
  have ho : o ∈ s.Stale := ⟨k, h.before k rfl, hdet o⟩
  have hinvolved : (s'.Involved (some k)).ncard ≤ (s.Involved (some c)).ncard + 1 := by
    refine Nat.le_trans (Set.ncard_le_ncard ?_ ((s.finite_involved _).insert k))
      (Set.ncard_insert_le k _)
    intro j hj
    rcases h.involved j hj with hj | hj
    · exact .inr hj
    · exact .inl (Option.some.inj hj).symm
  have hstale : s'.Stale.ncard < s.Stale.ncard := by
    refine Set.ncard_lt_ncard ⟨fun v hv => ?_, fun hsub => ?_⟩ s.finite_stale
    · rcases h.stale hv with ⟨_, hd⟩ | ⟨_, hold | ⟨j, hd, hj⟩⟩
      · exact absurd (Option.some.inj hd) hkc
      · exact hold
      · exact absurd (Option.some.inj hd ▸ hj) (hdet v)
    · rcases h.stale (hsub ho) with ⟨_, hd⟩ | ⟨hne, _⟩
      · exact absurd (Option.some.inj hd) hkc
      · exact hne rfl
  -- the two changes cancel out
  unfold weight
  omega

/-- The displaced constraint was involved: its own record becomes stale, but that of the seized
variable is not stale any more. -/
theorem weight_of_involved {k : ConstraintId} (h : Seizes s s' c o (some k))
    (hk : k ∈ s.Involved (some c)) : s'.weight (some k) ≤ s.weight (some c) := by
  refine Nat.add_le_add (Set.ncard_le_ncard (fun j hj => ?_) (s.finite_involved _)) ?_
  · rcases h.involved j hj with hj | hj
    · exact hj
    · exact Option.some.inj hj ▸ hk
  by_cases hko : s.Determines k o
  · -- the seized variable was the one that it determined
    refine Set.ncard_le_ncard (fun v hv => ?_) s.finite_stale
    rcases h.stale hv with ⟨_, hd⟩ | ⟨hne, hold | ⟨j, hd, hj⟩⟩
    · exact absurd hko (Option.some.inj hd ▸ h.idle o)
    · exact hold
    · obtain rfl := Option.some.inj hd
      exact absurd (hj.unique hko) hne
  have ho : o ∈ s.Stale := ⟨k, h.before k rfl, hko⟩
  by_cases hw : ∃ w, s.Determines k w
  · -- it determined another variable, whose record takes the place of the seized one
    obtain ⟨w, hw⟩ := hw
    have hkc : k ≠ c := fun e => h.idle w (e ▸ hw)
    calc s'.Stale.ncard ≤ (insert w (s.Stale \ {o})).ncard := by
          refine Set.ncard_le_ncard (fun v hv => ?_) ((s.finite_stale.subset
            Set.sdiff_subset).insert w)
          rcases h.stale hv with ⟨_, hd⟩ | ⟨hne, hold | ⟨j, hd, hj⟩⟩
          · exact absurd (Option.some.inj hd) hkc
          · exact .inr ⟨hold, hne⟩
          · obtain rfl := Option.some.inj hd
            exact .inl (hj.unique hw)
      _ ≤ (s.Stale \ {o}).ncard + 1 := Set.ncard_insert_le w _
      _ = s.Stale.ncard := Set.ncard_sdiff_singleton_add_one ho s.finite_stale
  · -- it had no method in force, so no record becomes stale
    refine Set.ncard_le_ncard (fun v hv => ?_) s.finite_stale
    rcases h.stale hv with ⟨rfl, _⟩ | ⟨_, hold | ⟨j, hd, hj⟩⟩
    · exact ho
    · exact hold
    · obtain rfl := Option.some.inj hd
      exact absurd ⟨v, hj⟩ hw

/-- Moving a method into force does not increase the weight. -/
theorem weight_le (h : Seizes s s' c o displaced) :
    s'.weight displaced ≤ s.weight (some c) := by
  cases displaced with
  | none => exact h.weight_none
  | some k =>
    by_cases hk : k ∈ s.Involved (some c)
    · exact h.weight_of_involved hk
    · exact h.weight_of_not_involved hk

/-- The displaced constraint has no method in force. -/
theorem displaced_idle (h : Seizes s s' c o displaced) {k : ConstraintId}
    (hk : displaced = some k) (v : VarId) : ¬ s'.Determines k v := by
  rw [h.determines]
  exact fun hnot => hnot.1 hk

end Seizes

/-! ## Switching a constraint off -/

section

variable {k : ConstraintId} {v : VarId}

/-- Switching a constraint off leaves its method in force. -/
theorem determines_switchOff :
    (s.modifyConstraint c fun x => { x with enabled := false }).Determines k v ↔
      s.Determines k v := by
  unfold Determines
  rw [constraintAt?_modifyConstraint]
  by_cases hk : k = c
  · rw [if_pos hk, hk]
    constructor
    · rintro ⟨node, hnode, hout⟩
      obtain ⟨x, hx, rfl⟩ := Option.map_eq_some_iff.1 hnode
      exact ⟨x, hx, hout⟩
    · rintro ⟨x, hx, hout⟩
      exact ⟨{ x with enabled := false }, by rw [hx]; rfl, hout⟩
  · rw [if_neg hk]

/-- Only the constraint itself is switched off. -/
theorem enabled_switchOff (h : (s.modifyConstraint c fun x => { x with enabled := false }).Enabled k) :
    k ≠ c ∧ s.Enabled k := by
  obtain ⟨node, hnode, hen⟩ := h
  rw [constraintAt?_modifyConstraint] at hnode
  by_cases hk : k = c
  · rw [if_pos hk] at hnode
    obtain ⟨_, _, rfl⟩ := Option.map_eq_some_iff.1 hnode
    cases hen
  · rw [if_neg hk] at hnode
    exact ⟨hk, node, hnode, hen⟩

/-- Switching a constraint off does not increase the weight. -/
theorem weight_switchOff (s : Solver W T) (c : ConstraintId) :
    (s.modifyConstraint c fun x => { x with enabled := false }).weight none ≤ s.weight none := by
  refine weight_le ?_ ?_
  · rintro k (hk | ⟨v, hk⟩ | ⟨hk, _⟩)
    · exact .inl (enabled_switchOff hk).2
    · exact .inr (.inl ⟨v, determines_switchOff.1 hk⟩)
    · cases hk
  · rintro v ⟨k, hrecords, hnot⟩
    exact ⟨k, hrecords, fun hdet => hnot (determines_switchOff.2 hdet)⟩

end

/-! ## Claiming variables -/

/-- No claim was taken back. -/
def Claims (mark : Mark) (s s' : Solver W T) : Prop :=
  ∀ v x', s'.variableAt? v = some x' → x'.mark ≠ mark →
    ∃ x, s.variableAt? v = some x ∧ x.mark ≠ mark

/-- Claims that two operations keep are kept by both together. -/
theorem Claims.transitive (mark : Mark) : SolveM.Transitive (Claims (W := W) (T := T) mark) where
  refl _ _ x' hx' hne := ⟨x', hx', hne⟩
  trans h h' v x'' hx'' hne := by
    obtain ⟨x', hx', hne'⟩ := h' v x'' hx'' hne
    exact h v x' hx' hne'

/-- Repainting keeps the marks. -/
theorem Repaints.claims (h : s.Repaints s') (mark : Mark) : s.Claims mark s' := by
  intro v x' hx' hne
  obtain ⟨x, hx, _, _, hmark⟩ := h.variable_of hx'
  exact ⟨x, hx, hmark ▸ hne⟩

/-- A change of a variable that claims it or keeps its mark. -/
theorem claims_modifyVariable {mark : Mark} {f : Variable T → Variable T}
    (hf : ∀ x, (f x).mark = mark ∨ (f x).mark = x.mark) (v : VarId) (s : Solver W T) :
    s.Claims mark (s.modifyVariable v f) := by
  intro u x' hx' hne
  rw [variableAt?_modifyVariable] at hx'
  by_cases hu : u = v
  · rw [if_pos hu] at hx'
    obtain ⟨x, hx, rfl⟩ := Option.map_eq_some_iff.1 hx'
    refine ⟨x, hu ▸ hx, ?_⟩
    rw [← (hf x).resolve_left hne]
    exact hne
  · rw [if_neg hu] at hx'
    exact ⟨x', hx', hne⟩

/-- Claiming a variable that was unclaimed leaves fewer unclaimed, if no claim was taken back before. -/
theorem Claims.unclaimed_lt {mark : Mark} {o : VarId} {x : Variable T} (hclaims : s.Claims mark s')
    (hx : s.variableAt? o = some x) (hmark : x.mark ≠ mark) :
    (s'.modifyVariable o fun x => { x with mark := mark }).unclaimed mark < s.unclaimed mark := by
  have hclaims' := (Claims.transitive mark).trans hclaims
    (claims_modifyVariable (f := fun x => { x with mark := mark }) (fun _ => .inl rfl) o s')
  refine Solver.unclaimed_lt hx hmark fun v y hy hne => ⟨?_, hclaims' v y hy hne⟩
  rintro rfl
  rw [variableAt?_modifyVariable, if_pos rfl] at hy
  obtain ⟨_, _, rfl⟩ := Option.map_eq_some_iff.1 hy
  exact hne rfl

/-! ## Taking a method out of force -/

/-- `c` has lost its method in force, and its output records no determiner. -/
structure Quits (s s' : Solver W T) (c : ConstraintId) : Prop where
  /-- No constraint was enabled. -/
  enabled : ∀ k, s'.Enabled k → s.Enabled k
  /-- What the constraints determine afterwards. -/
  determines : ∀ k v, s'.Determines k v ↔ k ≠ c ∧ s.Determines k v
  /-- What the variables record afterwards. -/
  records : ∀ v k, s'.Records v k → s.Records v k ∧ ¬ s.Determines c v

section

variable {s₁ : Solver W T} {node : Constraint W T} (hnode : s.constraintAt? c = some node)
  (hsame : (s.modifyConstraint c fun x => { x with enforcing := none }).SameForce s₁)
include hnode hsame

/-- What is left of a constraint whose method is out of force is the record of it at its output. -/
theorem determines_cleared (k : ConstraintId) (v : VarId) :
    s₁.Determines k v ↔ k ≠ c ∧ s.Determines k v := by
  rw [hsame.determines, determines_setEnforcing hnode]
  by_cases hk : k = c
  · simp [hk]
  · simp [hk]

/-- Without an output there is no record of the constraint either. -/
theorem quits_of_dead (hdead : ∀ v, s.Determines c v → s₁.variableAt? v = none) :
    Quits s s₁ c where
  enabled k hk := enabled_setEnforcing.1 (hsame.enabled.1 hk)
  determines := determines_cleared hnode hsame
  records v k hk := by
    refine ⟨hsame.records.1 hk, fun hv => ?_⟩
    obtain ⟨x, hx, _⟩ := hk
    rw [hdead v hv] at hx
    cases hx

/-- Releasing the output takes the record of the constraint away. -/
theorem quits_release {o : VarId} (ho : s.Determines c o) :
    Quits s (s₁.modifyVariable o Variable.release) c where
  enabled k hk := enabled_setEnforcing.1 (hsame.enabled.1 hk)
  determines k v := by
    have hcleared := determines_cleared hnode hsame k v
    exact hcleared
  records := by
    rintro v k ⟨y, hy, hk⟩
    rw [variableAt?_modifyVariable] at hy
    by_cases hv : v = o
    · rw [if_pos hv] at hy
      obtain ⟨_, _, rfl⟩ := Option.map_eq_some_iff.1 hy
      cases hk
    · rw [if_neg hv] at hy
      exact ⟨hsame.records.1 ⟨y, hy, hk⟩, fun hdet => hv (hdet.unique ho)⟩

end

namespace Quits

/-- Nothing becomes involved. -/
theorem involved (h : Quits s s' c) : s'.Involved none ⊆ s.Involved none := by
  rintro k (hk | ⟨v, hk⟩ | ⟨hk, _⟩)
  · exact .inl (h.enabled k hk)
  · exact .inr (.inl ⟨v, ((h.determines k v).1 hk).2⟩)
  · cases hk

/-- No record becomes stale. -/
theorem stale (h : Quits s s' c) : s'.Stale ⊆ s.Stale := by
  rintro v ⟨k, hrecords, hnot⟩
  obtain ⟨hrecords, hfree⟩ := h.records v k hrecords
  refine ⟨k, hrecords, fun hdet => hnot ((h.determines k v).2 ⟨?_, hdet⟩)⟩
  -- the record of the constraint itself is gone
  rintro rfl
  exact hfree hdet

/-- The weight does not increase. -/
theorem weight_le (h : Quits s s' c) : s'.weight none ≤ s.weight none :=
  Solver.weight_le h.involved h.stale

/-- Taking out a constraint that is not enabled decreases the weight. -/
theorem weight_lt (h : Quits s s' c) (hoff : ¬ s.Enabled c) (hdet : s.Determines c o) :
    s'.weight none < s.weight none := by
  refine Nat.add_lt_add_of_lt_of_le (Set.ncard_lt_ncard ⟨h.involved, fun hsub => ?_⟩
    (s.finite_involved none)) (Set.ncard_le_ncard h.stale s.finite_stale)
  -- the constraint was involved only through its method
  rcases hsub (.inr (.inl ⟨o, hdet⟩)) with hk | ⟨v, hk⟩ | ⟨hk, _⟩
  · exact hoff (h.enabled c hk)
  · exact ((h.determines c v).1 hk).1 rfl
  · cases hk

end Quits

end Solver

namespace SolveM

variable {W T : Type} {m : Machine W T} {c : ConstraintId}

open Solver (SameForce Seizes Quits)

/-- Putting a constraint on record changes no method in force. -/
theorem register_sameForce (c : ConstraintId) :
    Obeys (W := W) (T := T) SameForce (register c) := by
  have hT := SameForce.transitive (W := W) (T := T)
  refine .bind hT (.getConstraint hT c) fun _ => .forM hT fun v => .changeVariable hT ?_
  exact Solver.sameForce_modifyVariable (by intro; rfl) v

/-- Taking a live constraint off the record succeeds, and changes no method in force. -/
theorem ensures_deregister_sameForce (hlive : (m.solver.constraintAt? c).isSome) :
    Ensures (deregister c) m fun r m' => r = .ok () ∧ m.solver.SameForce m'.solver := by
  have hT := SameForce.transitive (W := W) (T := T)
  obtain ⟨node, hnode⟩ := Option.isSome_iff_exists.1 hlive
  unfold deregister
  rw [ensures_bind]
  refine .getConstraint hnode (.and (ensures_forM_update.2 rfl) ?_)
  refine Obeys.forM hT (fun v => .update ?_) m
  exact Solver.sameForce_modifyVariable (by intro; rfl) v

/-- Claiming variables does not touch methods in force. -/
theorem forM_claim_sameForce (mark : Mark) (vs : List VarId) :
    Obeys (W := W) (T := T) SameForce
      (vs.forM fun v => changeVariable v fun x => { x with mark := mark }) := by
  have hT := SameForce.transitive (W := W) (T := T)
  refine .forM hT fun v => .changeVariable hT ?_
  exact Solver.sameForce_modifyVariable (by intro; rfl) v

/-! ## Installing a method -/

/-- Seizing a variable takes the method of its recorded determiner out of force and records `c`. -/
theorem ensures_seize_records (c : ConstraintId) (o : VarId) :
    Ensures (seize c o) m fun r m' =>
      match r with
      | .error _ => m'.solver = m.solver
      | .ok displaced => (∀ k, displaced = some k → m.solver.Records o k) ∧
        (∀ k, m'.solver.Enabled k ↔ m.solver.Enabled k) ∧
        (∀ k v, m'.solver.Determines k v ↔ displaced ≠ some k ∧ m.solver.Determines k v) ∧
        ∀ v k, m'.solver.Records v k ↔ if v = o then k = c else m.solver.Records v k := by
  -- the last step of both branches
  have hrecords : ∀ {s : Solver W T} {x : Variable T}, s.variableAt? o = some x → ∀ v k,
      (s.modifyVariable o fun x => { x with determinedBy := some c }).Records v k ↔
        if v = o then k = c else s.Records v k := by
    intro s x hx v k
    unfold Solver.Records
    rw [Solver.variableAt?_modifyVariable]
    by_cases hv : v = o
    · rw [if_pos hv, if_pos hv, hx]
      simp [eq_comm]
    · rw [if_neg hv, if_neg hv]
  unfold seize
  rw [ensures_bind, ensures_getVariable, Solver.lookupVariable]
  cases hx : m.solver.variableAt? o with
  | none => rfl
  | some x =>
    simp only
    cases hd : x.determinedBy with
    | none =>
      simp only [ensures_bind]
      refine .changeVariable hx ?_
      simp only [ensures_count, ensures_note, ensures_pure]
      exact ⟨by simp, fun _ => Iff.rfl, fun _ _ => by simp; rfl, hrecords hx⟩
    | some other =>
      simp only [ensures_bind, ensures_changeConstraint]
      cases hn : m.solver.constraintAt? other with
      | none => simp only
      | some n =>
        simp only [ensures_count, ensures_note]
        refine .changeVariable (x := x) hx ?_
        simp only [ensures_pure]
        refine ⟨fun k hk => ⟨x, hx, hd.trans hk⟩, fun k => Solver.enabled_setEnforcing,
          fun k v => ?_, hrecords hx⟩
        change (m.solver.modifyConstraint other _).Determines k v ↔ _
        rw [Solver.determines_setEnforcing hn]
        by_cases hk : k = other
        · simp [hk]
        · rw [if_neg hk]
          exact (and_iff_right fun e => hk (Option.some.inj e).symm).symm

/-- Installing a method seizes its output, or comes to nothing without increasing the weight. -/
theorem ensures_install_seizes {mark : Mark} (hidle : ∀ v, ¬ m.solver.Determines c v) :
    Ensures (install mark c) m fun r m' =>
      match r with
      | .ok (some (o, displaced)) => Seizes m.solver m'.solver c o displaced
      | _ => m'.solver.weight none ≤ m.solver.weight (some c) := by
  have hT := SameForce.transitive (W := W) (T := T)
  unfold install
  rw [ensures_bind, ensures_getConstraint, Solver.lookupConstraint]
  cases hnode : m.solver.constraintAt? c with
  | none => exact m.solver.weight_none_le _
  | some node =>
    simp only
    rw [ensures_bind, ensures_query]
    cases m.solver.weakestMethod mark node.definition with
    | error e => exact m.solver.weight_none_le _
    | ok chosen =>
      simp only
      rw [ensures_bind]
      refine .changeConstraint hnode ?_
      -- from here on the installation can only fail within the weight
      have hweight := Solver.weight_setEnforcing (i := chosen) hnode hidle
      cases hmethod : chosen.bind node.definition.method? with
      | none =>
        simp only
        split
        · simp only [ensures_bind, ensures_count, ensures_throw]
          exact hweight
        · simp only [ensures_bind, ensures_note, ensures_pure]
          exact hweight
      | some method =>
        simp only
        rw [ensures_bind]
        refine (forM_claim_sameForce mark _ _).mono fun r m₁ hsame => ?_
        have hweight₁ : m₁.solver.weight none ≤ m.solver.weight (some c) := by
          rw [hsame.weight_eq]
          exact hweight
        cases r with
        | error e => exact hweight₁
        | ok _ =>
          simp only
          rw [ensures_bind]
          have hdet : ∀ k v, m₁.solver.Determines k v ↔
              if k = c then v = method.output else m.solver.Determines k v := by
            intro k v
            rw [hsame.determines, Solver.determines_setEnforcing hnode, hmethod]
            simp only [Option.map_some, Option.some.injEq, eq_comm]
          have hrecords : ∀ v k, m₁.solver.Records v k ↔ m.solver.Records v k :=
            fun v k => hsame.records
          have henabled : ∀ k, m₁.solver.Enabled k → m.solver.Enabled k :=
            fun k hk => Solver.enabled_setEnforcing.1 (hsame.enabled.1 hk)
          refine (ensures_seize_records c method.output).mono fun r m₂ hr => ?_
          cases r with
          | error e =>
            change m₂.solver.weight none ≤ _
            rw [hr]
            exact hweight₁
          | ok displaced =>
            obtain ⟨hbefore, henabled₂, hdet₂, hrecords₂⟩ := hr
            simp only
            rw [ensures_pure]
            refine ⟨by rw [hnode]; rfl, hidle, fun k hk => (hrecords _ _).1 (hbefore k hk),
              fun k hk => henabled k ((henabled₂ k).1 hk), fun k v => ?_, fun v k => ?_⟩
            · rw [hdet₂, hdet]
            · rw [hrecords₂, hrecords]

/-- An installation claims variables and takes no claim back. -/
theorem install_claims (mark : Mark) (c : ConstraintId) :
    Obeys (W := W) (T := T) (Solver.Claims mark) (install mark c) := by
  have hT := Solver.Claims.transitive (W := W) (T := T) mark
  have hconstraint : ∀ (k : ConstraintId) (f : Constraint W T → Constraint W T),
      Obeys (W := W) (T := T) (Solver.Claims mark) (changeConstraint k f) :=
    fun k f => .changeConstraint hT fun s => hT.refl s
  have hcount : ∀ f, Obeys (W := W) (T := T) (Solver.Claims mark) (count f) :=
    fun f => .update fun s => hT.refl s
  unfold install seize
  refine .bind hT (.getConstraint hT c) fun node => .bind hT (.query hT _) fun chosen => ?_
  refine .bind hT (hconstraint c _) fun _ => ?_
  split
  · split
    · refine .bind hT (hcount _) fun _ => .bind hT (.throw hT _) fun _ => ?_
      exact .bind hT (.note hT _) fun _ => .pure hT _
    · exact .bind hT (.note hT _) fun _ => .pure hT _
  · next method _ =>
    have hdetermine : Obeys (W := W) (T := T) (Solver.Claims mark)
        (changeVariable method.output fun x => { x with determinedBy := some c }) :=
      .changeVariable hT (Solver.claims_modifyVariable (by intro; exact .inr rfl) _)
    refine .bind hT (.forM hT fun v => .changeVariable hT ?_) fun _ => ?_
    · exact Solver.claims_modifyVariable (by intro; exact .inl rfl) v
    · refine .bind hT ?_ fun _ => .pure hT _
      refine .bind hT (.getVariable hT _) fun x => ?_
      -- the marks are the same whether a constraint is displaced or not
      cases x.determinedBy with
      | none =>
        refine .bind hT hdetermine fun _ => .bind hT (hcount _) fun _ => ?_
        exact .bind hT (.note hT _) fun _ => .pure hT _
      | some other =>
        refine .bind hT (hconstraint other _) fun _ => .bind hT (hcount _) fun _ => ?_
        refine .bind hT (.note hT _) fun _ => .bind hT hdetermine fun _ => ?_
        exact .bind hT (hcount _) fun _ => .bind hT (.note hT _) fun _ => .pure hT _

/-- The output of the installed method was unclaimed. -/
theorem ensures_install_unclaimed (mark : Mark) (c : ConstraintId) :
    Ensures (install mark c) m fun r _ => ∀ o displaced, r = .ok (some (o, displaced)) →
      ∃ x, m.solver.variableAt? o = some x ∧ x.mark ≠ mark := by
  unfold install
  rw [ensures_bind, ensures_getConstraint]
  cases m.solver.lookupConstraint c with
  | error e => simp
  | ok node =>
    simp only
    rw [ensures_bind, ensures_query]
    cases hchosen : m.solver.weakestMethod mark node.definition with
    | error e => simp
    | ok chosen =>
      simp only
      rw [ensures_bind]
      intro r m₁ _
      cases r with
      | error e => simp
      | ok _ =>
        cases chosen with
        | none =>
          simp only [Option.bind_none]
          split
          · simp only [ensures_bind, ensures_count, ensures_throw]
            simp
          · simp only [ensures_bind, ensures_note, ensures_pure]
            simp
        -- the method was chosen among those with an unclaimed output
        | some i =>
          obtain ⟨method, x, hmethod, hx, hmark, _⟩ := Solver.weakestMethod_eq_some hchosen
          simp only [Option.bind_some, hmethod]
          rw [ensures_bind]
          intro r m₂ _
          cases r with
          | error e => simp
          | ok _ =>
            simp only
            rw [ensures_bind]
            intro r m₃ _
            cases r with
            | error e => simp
            | ok d =>
              refine (ensures_pure _).2 fun o displaced h => ?_
              obtain ⟨rfl, _⟩ := Prod.mk.inj (Option.some.inj (Except.ok.inj h))
              exact ⟨x, hx, hmark⟩

end SolveM

end DeltaBlue
