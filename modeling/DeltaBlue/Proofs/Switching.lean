import Mathlib.Data.Set.Card
import DeltaBlue.Proofs.Blame
import DeltaBlue.Proofs.Candor
import DeltaBlue.Proofs.Resolution

/-!
# What calls switch on and off

A call that is about enabling is asked to switch some constraints on and some off (`Call.asksOn`,
`Call.asksOff`). Whatever comes of it, nothing else is switched on, and constraints are switched off
besides only where a cycle is counted, one for each cycle (`Solver.Switches`). This is a relation that
every step of the operations obeys. A call that succeeds has counted no cycle, so nothing is lost then,
and what was asked for is in place (`SolveM.Complies`).
-/

namespace DeltaBlue

namespace Solver

variable {W T : Type} {s s' s'' : Solver W T} {on off : ConstraintId → Prop} {c k : ConstraintId}

/-- The constraints that were switched off without being asked for. -/
def lost (s : Solver W T) (off : ConstraintId → Prop) (s' : Solver W T) : Set ConstraintId :=
  {k | s.Enabled k ∧ ¬ off k ∧ ¬ s'.Enabled k}

/-- Only constraints of `on` were switched on, and of the constraints outside `off` at most as many
were switched off as cycles were counted. -/
structure Switches (on off : ConstraintId → Prop) (s s' : Solver W T) : Prop where
  /-- What is enabled was enabled, or was to be. -/
  enabled : ∀ k, s'.Enabled k → s.Enabled k ∨ on k
  /-- Each constraint that was lost is accounted for by a cycle. -/
  cycles : s.metrics.cycles + (s.lost off s').ncard ≤ s'.metrics.cycles

/-- Only constraints that were live can be lost. -/
theorem finite_lost (s : Solver W T) (off : ConstraintId → Prop) (s' : Solver W T) :
    (s.lost off s').Finite := by
  refine s.finite_constraints.subset ?_
  rintro k ⟨⟨node, hnode, _⟩, _⟩
  exact Option.isSome_iff_exists.2 ⟨node, hnode⟩

/-- What is lost on the way is lost in the first part or in the second. -/
theorem lost_subset (s s' s'' : Solver W T) :
    s.lost off s'' ⊆ s.lost off s' ∪ s'.lost off s'' := by
  rintro k ⟨hk, hoff, hk''⟩
  by_cases hk' : s'.Enabled k
  · exact .inr ⟨hk', hoff, hk''⟩
  · exact .inl ⟨hk, hoff, hk'⟩

/-- Two operations one after the other switch what each of them does, and count the cycles of
both. -/
theorem Switches.transitive (on off : ConstraintId → Prop) :
    SolveM.Transitive (Switches (W := W) (T := T) on off) where
  refl s := by
    refine ⟨fun k hk => .inl hk, ?_⟩
    have hnone : s.lost off s = ∅ := Set.eq_empty_of_forall_notMem fun k hk => hk.2.2 hk.1
    rw [hnone, Set.ncard_empty]
    exact Nat.le_refl _
  trans {s s' s''} h h' := by
    refine ⟨fun k hk => ?_, ?_⟩
    · rcases h'.enabled k hk with hk' | hon
      · exact h.enabled k hk'
      · exact .inr hon
    · calc s.metrics.cycles + (s.lost off s'').ncard
        _ ≤ s.metrics.cycles + (s.lost off s' ∪ s'.lost off s'').ncard :=
          Nat.add_le_add_left (Set.ncard_le_ncard (lost_subset s s' s'')
            ((finite_lost ..).union (finite_lost ..))) _
        _ ≤ s.metrics.cycles + ((s.lost off s').ncard + (s'.lost off s'').ncard) :=
          Nat.add_le_add_left (Set.ncard_union_le _ _) _
        _ = s.metrics.cycles + (s.lost off s').ncard + (s'.lost off s'').ncard := by omega
        _ ≤ s'.metrics.cycles + (s'.lost off s'').ncard := Nat.add_le_add_right h.cycles _
        _ ≤ s''.metrics.cycles := h'.cycles

/-- If no cycle was counted, nothing was lost. -/
theorem Switches.keeps (h : s.Switches on off s') (hcycles : s'.metrics.cycles = s.metrics.cycles)
    (hk : s.Enabled k) (hoff : ¬ off k) : s'.Enabled k := by
  have hcard : (s.lost off s').ncard = 0 := by
    have := h.cycles
    omega
  rw [Set.ncard_eq_zero (finite_lost s off s')] at hcard
  by_contra hk'
  have hmem : k ∈ s.lost off s' := ⟨hk, hoff, hk'⟩
  rw [hcard] at hmem
  exact hmem

/-- A constraint that is not enabled in the end was not switched on, and one that was not enabled in the
beginning was not switched off. -/
theorem Switches.mono {on' off' : ConstraintId → Prop} (h : s.Switches on off s')
    (hon : ∀ k, on k → s'.Enabled k → on' k) (hoff : ∀ k, off k → s.Enabled k → off' k) :
    s.Switches on' off' s' := by
  refine ⟨fun k hk => (h.enabled k hk).imp_right fun honk => hon k honk hk, ?_⟩
  refine Nat.le_trans (Nat.add_le_add_left ?_ _) h.cycles
  refine Set.ncard_le_ncard ?_ (finite_lost s off s')
  rintro k ⟨hk, hoff', hk'⟩
  exact ⟨hk, fun hoffk => hoff' (hoff k hoffk hk), hk'⟩

/-- Nothing is lost as long as everything stays enabled that is not to be switched off. -/
theorem switches_of_enabled (h : ∀ k, s'.Enabled k → s.Enabled k ∨ on k)
    (h' : ∀ k, s.Enabled k → s'.Enabled k ∨ off k)
    (hcycles : s'.metrics.cycles = s.metrics.cycles) : s.Switches on off s' := by
  refine ⟨h, ?_⟩
  have hnone : s.lost off s' = ∅ := by
    refine Set.eq_empty_of_forall_notMem ?_
    rintro k ⟨hk, hoff, hk'⟩
    rcases h' k hk with hk'' | hoff'
    · exact hk' hk''
    · exact hoff hoff'
  rw [hnone, Set.ncard_empty, hcycles]
  exact Nat.le_refl _

/-- The constraints are the same. -/
theorem switches_of_constraintAt (h : ∀ k, s'.constraintAt? k = s.constraintAt? k)
    (hcycles : s'.metrics.cycles = s.metrics.cycles) : s.Switches on off s' := by
  have henabled : ∀ k, s'.Enabled k ↔ s.Enabled k := by
    intro k
    unfold Enabled
    rw [h]
  exact switches_of_enabled (fun k hk => .inl ((henabled k).1 hk))
    (fun k hk => .inl ((henabled k).2 hk)) hcycles

/-- A constraint that does not exist is not enabled. -/
theorem not_enabled_of_none (h : s.constraintAt? c = none) : ¬ s.Enabled c := by
  rintro ⟨node, hnode, _⟩
  cases h.symm.trans hnode

/-- After a change of `c` the other constraints are enabled as before. -/
theorem enabled_modifyConstraint_of_ne {f : Constraint W T → Constraint W T} (hk : k ≠ c) :
    (s.modifyConstraint c f).Enabled k ↔ s.Enabled k := by
  unfold Enabled
  rw [constraintAt?_modifyConstraint, if_neg hk]

/-- Whether a changed constraint is enabled is for the change to say. -/
theorem enabled_modifyConstraint {f : Constraint W T → Constraint W T} :
    (s.modifyConstraint c f).Enabled c ↔
      ∃ node, s.constraintAt? c = some node ∧ (f node).enabled = true := by
  unfold Enabled
  rw [constraintAt?_modifyConstraint, if_pos rfl]
  constructor
  · rintro ⟨_, hmap, hen⟩
    obtain ⟨node, hnode, rfl⟩ := Option.map_eq_some_iff.1 hmap
    exact ⟨node, hnode, hen⟩
  · rintro ⟨node, hnode, hen⟩
    exact ⟨f node, by rw [hnode, Option.map_some], hen⟩

/-- A change of a constraint that leaves it switched on or off. -/
theorem enabled_modifyConstraint_iff {f : Constraint W T → Constraint W T}
    (hf : ∀ x, (f x).enabled = x.enabled) (k : ConstraintId) :
    (s.modifyConstraint c f).Enabled k ↔ s.Enabled k := by
  by_cases hk : k = c
  · subst hk
    rw [enabled_modifyConstraint]
    unfold Enabled
    simp only [hf]
  · exact enabled_modifyConstraint_of_ne hk

/-- A constraint is switched off that was to be. -/
theorem switches_switchOff (hoff : off c) (s : Solver W T) :
    s.Switches on off (s.modifyConstraint c fun x => { x with enabled := false }) := by
  refine switches_of_enabled (fun k hk => .inl ((propagates_switchOff c s).enabled k hk))
    (fun k hk => ?_) rfl
  by_cases hkc : k = c
  · exact .inr (hkc ▸ hoff)
  · exact .inl ((enabled_modifyConstraint_of_ne hkc).2 hk)

/-- A constraint is switched on that was to be. -/
theorem switches_switchOn (hon : on c) (s : Solver W T) :
    s.Switches on off
      (s.modifyConstraint c fun x => { x with enabled := true, enforcing := none }) := by
  refine switches_of_enabled (fun k hk => ?_) (fun k hk => .inl ?_) rfl
  · by_cases hkc : k = c
    · exact .inr (hkc ▸ hon)
    · exact .inl ((enabled_modifyConstraint_of_ne hkc).1 hk)
  · by_cases hkc : k = c
    · subst hkc
      obtain ⟨node, hnode, _⟩ := hk
      exact enabled_modifyConstraint.2 ⟨node, hnode, rfl⟩
    · exact (enabled_modifyConstraint_of_ne hkc).2 hk

/-- A constraint is forgotten that was to be switched off. -/
theorem switches_eraseConstraint (hoff : off c)
    (hs' : ∀ k, s'.constraintAt? k = if k = c then none else s.constraintAt? k)
    (hcycles : s'.metrics.cycles = s.metrics.cycles) : s.Switches on off s' := by
  refine switches_of_enabled (fun k hk => ?_) (fun k hk => ?_) hcycles
  · obtain ⟨node, hnode, hen⟩ := hk
    rw [hs'] at hnode
    by_cases hkc : k = c
    · rw [if_pos hkc] at hnode
      cases hnode
    · rw [if_neg hkc] at hnode
      exact .inl ⟨node, hnode, hen⟩
  · by_cases hkc : k = c
    · exact .inr (hkc ▸ hoff)
    · obtain ⟨node, hnode, hen⟩ := hk
      exact .inl ⟨node, by rw [hs', if_neg hkc, hnode], hen⟩

/-- The constraint that closes a cycle is switched off, and the cycle is counted. -/
theorem switches_break (c : ConstraintId) (s : Solver W T) : s.Switches on off
    (({ s with metrics := { s.metrics with cycles := s.metrics.cycles + 1 } } :
      Solver W T).modifyConstraint c fun x => { x with enabled := false }) := by
  refine ⟨fun k hk => .inl ((propagates_switchOff c _).enabled k hk), ?_⟩
  refine Nat.add_le_add_left ?_ s.metrics.cycles
  rw [← Set.ncard_singleton c]
  refine Set.ncard_le_ncard ?_ (Set.finite_singleton c)
  rintro k ⟨hk, _, hk'⟩
  by_contra hkc
  exact hk' ((enabled_modifyConstraint_of_ne hkc).2 hk)

end Solver

namespace SolveM

open Solver (Switches Wanes)

variable {W T α β : Type} {m : Machine W T} {on off : ConstraintId → Prop} {c : ConstraintId}

/-- No step of propagation switches a constraint, but for the breaking of a cycle, which is
counted. -/
theorem switches_frame (on off : ConstraintId → Prop) :
    PassFrame (W := W) (T := T) (Switches on off) where
  toTransitive := Switches.transitive on off
  onPaint _ _ _ := Solver.switches_of_constraintAt (fun _ => rfl) rfl
  onWork hf s := Solver.switches_of_constraintAt (fun _ => rfl) (Prod.mk.inj (hf s.metrics)).1
  onVariable _ _ _ := Solver.switches_of_constraintAt (fun _ => rfl) rfl
  onForce _ _ s _ :=
    have hsame := Solver.enabled_modifyConstraint_iff (s := s) (by intro; rfl)
    Solver.switches_of_enabled (fun k hk => .inl ((hsame k).1 hk))
      (fun k hk => .inl ((hsame k).2 hk)) rfl
  onUnsatisfied _ := Solver.switches_of_constraintAt (fun _ => rfl) rfl
  -- one constraint is lost, and one cycle counted
  onBreak := Solver.switches_break
  onPass _ := Solver.switches_of_constraintAt (fun _ => rfl) rfl

/-- To switch a constraint off has to be asked for. -/
theorem switches_leave (on off : ConstraintId → Prop) (hoff : off c) :
    LeaveFrame (W := W) (T := T) c (Switches on off) where
  toPassFrame := switches_frame on off
  onLeave := Solver.switches_switchOff hoff
  onChange _ := Solver.switches_of_constraintAt (fun _ => rfl) rfl

/-- To switch a constraint on has to be asked for, and also to take this back. -/
theorem switches_enter (on off : ConstraintId → Prop) (hon : on c) (hoff : off c) :
    EnterFrame (W := W) (T := T) c (Switches on off) where
  toLeaveFrame := switches_leave on off hoff
  onEnter := Solver.switches_switchOn hon

/-- What a call that was asked to switch `on` on and `off` off comes to: nothing else is switched on,
nothing is lost that is not accounted for by a cycle, and if the call succeeds, what was asked for is
in place. -/
structure Complies (on off : List ConstraintId) (r : Except SolveError α) (s s' : Solver W T) :
    Prop where
  /-- No more than that was switched, except where a cycle was counted. -/
  switches : s.Switches (· ∈ on) (· ∈ off) s'
  /-- After a success, what was to be switched on is enabled. -/
  isOn : ∀ a, r = .ok a → ∀ k ∈ on, s'.Enabled k
  /-- After a success, what was to be switched off is not enabled. -/
  isOff : ∀ a, r = .ok a → ∀ k ∈ off, ¬ s'.Enabled k

/-- What complies after a change that switches nothing complies with it. -/
theorem Complies.after {ons offs : List ConstraintId} {r : Except SolveError α} {s s₁ s' : Solver W T}
    (h : s.Switches (· ∈ ons) (· ∈ offs) s₁) (h' : Complies ons offs r s₁ s') :
    Complies ons offs r s s' :=
  ⟨(Switches.transitive _ _).trans h h'.switches, h'.isOn, h'.isOff⟩

/-- After a failure nothing that was asked for need be in place. -/
theorem Complies.of_error {ons offs : List ConstraintId} {e : SolveError} {s s' : Solver W T}
    (h : s.Switches (· ∈ ons) (· ∈ offs) s') : Complies ons offs (.error e : Except SolveError α) s s' where
  switches := h
  isOn := by rintro _ ⟨⟩
  isOff := by rintro _ ⟨⟩

/-- If the operation succeeds, it has lost nothing. -/
theorem Obeys.ensures_keeps {op : SolveM W T α} (h : Obeys (Switches on off) op) (hc : Candid op)
    (m : Machine W T) : Ensures op m fun r m' => ∀ a, r = .ok a →
      ∀ k, m.solver.Enabled k → ¬ off k → m'.solver.Enabled k := by
  refine ((h m).and (hc m)).mono ?_
  rintro r m' ⟨hs, hfaults⟩ a ha k hk hoff
  exact hs.keeps (Prod.mk.inj (hfaults a ha)).1 hk hoff

/-! ## Enabling and disabling -/

/-- Enabling switches the constraint on, or on and off again. -/
theorem enable_switches (on off : ConstraintId → Prop) (fuel : Nat) (hon : on c) (hoff : off c) :
    Obeys (W := W) (T := T) (Switches on off) (enable fuel c) :=
  enable_obeys (switches_enter on off hon hoff) fuel

/-- Disabling switches the constraint off. -/
theorem disable_switches (on off : ConstraintId → Prop) (fuel : Nat) (hoff : off c) :
    Obeys (W := W) (T := T) (Switches on off) (disable fuel c) :=
  disable_obeys (switches_leave on off hoff) fuel

/-- What was enabled when a constraint is settled is enabled afterwards if this succeeds. -/
theorem ensures_settle_keeps (fuel : Nat) (c : ConstraintId) : Ensures (settle fuel c) m fun r m' =>
    ∀ a, r = .ok a → ∀ k, m.solver.Enabled k → m'.solver.Enabled k := by
  have hadd := (add_obeys (switches_frame (fun _ => False) fun _ => False) fuel c).ensures_keeps
    (add_candid fuel c) m
  exact ensures_settle_cases hadd (fun _ h₁ _ _ k hk => h₁ _ rfl k hk not_false)
    (fun _ _ _ _ _ _ _ hr => by cases hr) fun _ _ _ _ _ hr => by cases hr

/-- A constraint that enters the graph is enabled. -/
theorem ensures_enter_enabled (c : ConstraintId) :
    Ensures (enter c) m fun r m' => ∀ a, r = .ok a → m'.solver.Enabled c := by
  have hT := Switches.transitive (W := W) (T := T) (fun _ => True) fun _ => False
  have hρ := switches_frame (W := W) (T := T) (fun _ => True) fun _ => False
  unfold enter
  rw [ensures_bind, ensures_changeConstraint]
  cases hnode : m.solver.constraintAt? c with
  | none => exact nofun
  | some node =>
    simp only
    generalize hs₁ : (m.solver.modifyConstraint c fun x =>
      { x with enabled := true, enforcing := none }) = s₁
    have hen : s₁.Enabled c := by
      rw [← hs₁]
      exact Solver.enabled_modifyConstraint.2 ⟨node, hnode, rfl⟩
    -- registering and counting switch nothing
    have hkeeps : ∀ {op : SolveM W T Unit}, Obeys (Switches (fun _ => True) fun _ => False) op →
        Candid op → ∀ m₁ : Machine W T, m₁.solver = s₁ →
        Ensures op m₁ fun r m' => ∀ a, r = .ok a → m'.solver.Enabled c := fun h hc m₁ hm₁ =>
      (h.ensures_keeps hc m₁).mono fun r m' h' a ha => h' a ha c (hm₁ ▸ hen) not_false
    refine hkeeps (.bind hT (register_obeys hρ.toForceFrame c) fun _ => ?_)
      (.bind (register_candid c) fun _ => ?_) _ rfl
    · refine .bind hT (.update fun _ => Solver.switches_of_constraintAt (fun _ => rfl) rfl) fun _ => ?_
      exact .bind hT (hρ.count (by intro; rfl)) fun _ => .note hT _
    · exact .bind (.update fun _ => rfl) fun _ => .bind (.count (by intro; rfl)) fun _ => .note _

/-- Enabling a constraint: it alone is switched on; if this fails, it was not enabled before. -/
theorem ensures_enable_complies (fuel : Nat) (c : ConstraintId) :
    Ensures (enable fuel c) m fun r m' => Complies [c] [] r m.solver m'.solver ∧
      ∀ e, r = .error e → ¬ m.solver.Enabled c := by
  have hT := Switches.transitive (W := W) (T := T) (· ∈ [c]) (· ∈ [])
  by_cases hen : m.solver.Enabled c
  · -- nothing is done
    obtain ⟨node, hnode, henabled⟩ := hen
    rw [enable_eq, ensures_bind]
    refine .getConstraint hnode ?_
    simp only [henabled, if_true]
    refine (ensures_pure _).2 ⟨⟨hT.refl _, fun _ _ k hk => ?_, fun _ _ => List.forall_mem_nil _⟩, nofun⟩
    rw [List.mem_singleton.1 hk]
    exact ⟨node, hnode, henabled⟩
  · have hswitches := enable_switches (· ∈ [c]) (· ∈ [c]) fuel (List.mem_singleton_self c)
      (List.mem_singleton_self c) m
    have hdone : Ensures (enable fuel c) m fun r m' => ∀ a, r = .ok a → m'.solver.Enabled c := by
      -- the constraint enters the graph, and its first enforcement keeps it enabled if this
      -- succeeds
      rw [enable_eq, ensures_bind, ensures_getConstraint]
      cases hnode : m.solver.lookupConstraint c with
      | error e => exact nofun
      | ok node =>
        have hoff : ¬ node.enabled = true := by
          unfold Solver.lookupConstraint at hnode
          cases hfound : m.solver.constraintAt? c with
          | none => rw [hfound] at hnode; cases hnode
          | some node' =>
            rw [hfound] at hnode
            obtain rfl := Except.ok.inj hnode
            exact fun henabled => hen ⟨node', hfound, henabled⟩
        simp only [if_neg hoff]
        rw [ensures_bind]
        refine (ensures_enter_enabled c).mono fun r m₁ h₁ => ?_
        cases r with
        | error e => exact nofun
        | ok a => exact (ensures_settle_keeps fuel c).mono fun r m' h' b hb => h' b hb c (h₁ a rfl)
    refine (hswitches.and hdone).mono ?_
    rintro r m' ⟨hs, hc⟩
    refine ⟨⟨hs.mono (fun _ hk _ => hk) fun k hk hen' => ?_, fun a ha k hk => ?_,
      fun _ _ => List.forall_mem_nil _⟩, fun _ _ => hen⟩
    · rw [List.mem_singleton.1 hk] at hen'
      exact absurd hen' hen
    · rw [List.mem_singleton.1 hk]
      exact hc a ha

/-- Disabling a constraint: it alone is switched off. -/
theorem ensures_disable_complies (fuel : Nat) (c : ConstraintId) :
    Ensures (disable fuel c) m fun r m' => Complies [] [c] r m.solver m'.solver := by
  refine ((disable_switches (· ∈ []) (· ∈ [c]) fuel (List.mem_singleton_self c) m).and
    (ensures_disable fuel c)).mono ?_
  rintro r m' ⟨hs, _, hoff⟩
  refine ⟨hs, fun _ _ => List.forall_mem_nil _, fun _ _ k hk => ?_⟩
  rw [List.mem_singleton.1 hk]
  exact hoff

/-! ## Constraints -/

/-- A constraint that is stored switches nothing; it was not enabled under its key before. -/
theorem ensures_storeConstraint_switches (on off : ConstraintId → Prop) {node : Constraint W T}
    (hnode : node.enabled = false) :
    Ensures (storeConstraint node) m fun r m' =>
      m.solver.Switches on off m'.solver ∧ ∀ c, r = .ok c → ¬ m.solver.Enabled c := by
  unfold storeConstraint
  rw [ensures_bind, ensures_query]
  cases hins : m.solver.constraints.insert node with
  | error e => exact ⟨(Switches.transitive on off).refl _, nofun⟩
  | ok p =>
    obtain ⟨c, constraints⟩ := p
    obtain ⟨hfree, hconstraints⟩ := Arena.get?_of_insert hins
    have hnew : ¬ m.solver.Enabled c := by
      rintro ⟨n, hn, _⟩
      rw [Solver.constraintAt?, hfree] at hn
      cases hn
    simp only [Except.mapError, ensures_bind, ensures_update, ensures_pure]
    refine ⟨Solver.switches_of_enabled (fun k hk => .inl ?_) (fun k hk => .inl ?_) rfl, ?_⟩
    · obtain ⟨n, hn, hen⟩ := hk
      rw [Solver.constraintAt?, hconstraints] at hn
      by_cases hkc : k = c
      · rw [if_pos hkc] at hn
        rw [← Option.some.inj hn, hnode] at hen
        cases hen
      · rw [if_neg hkc] at hn
        exact ⟨n, hn, hen⟩
    · have hkc : k ≠ c := fun hkc => hnew (hkc ▸ hk)
      obtain ⟨n, hn, hen⟩ := hk
      exact ⟨n, by rw [Solver.constraintAt?, hconstraints, if_neg hkc]; exact hn, hen⟩
    · rintro _ ⟨⟩
      exact hnew

/-- A constraint that is inserted is not enabled. -/
theorem insert_switches (d : Definition W T) : Obeys (Switches on off) (insert d) := by
  have hT := Switches.transitive (W := W) (T := T) on off
  refine .bind hT (.forM hT fun v => .bind hT (.getVariable hT v) fun _ => .pure hT _) fun _ m => ?_
  exact (ensures_storeConstraint_switches on off rfl).mono fun _ _ h => h.1

/-- A constraint that is forgotten is not enabled any longer. -/
theorem discard_switches (hoff : off c) : Obeys (W := W) (T := T) (Switches on off) (discard c) := by
  refine .update fun s => ?_
  have hgone := Arena.get?_erase s.constraints c
  cases (s.constraintAt? c).bind Constraint.sink with
  | none => exact Solver.switches_eraseConstraint hoff hgone rfl
  | some sink => exact Solver.switches_eraseConstraint hoff hgone rfl

/-- Removing a constraint switches it off. -/
theorem removeConstraint_switches (on off : ConstraintId → Prop) (fuel : Nat) (hoff : off c) :
    Obeys (W := W) (T := T) (Switches on off) (removeConstraint fuel c) :=
  removeConstraint_obeys (switches_leave on off hoff) (discard_switches hoff) fuel

/-- Removing a constraint: it alone is switched off, even if its disabling fails. -/
theorem ensures_removeConstraint_complies (fuel : Nat) (c : ConstraintId) :
    Ensures (removeConstraint fuel c) m fun r m' => Complies [] [c] r m.solver m'.solver := by
  refine ((removeConstraint_switches (· ∈ []) (· ∈ [c]) fuel (List.mem_singleton_self c) m).and
    (ensures_removeConstraint_forgets fuel c)).mono ?_
  rintro r m' ⟨hs, hforgets⟩
  refine ⟨hs, fun _ _ => List.forall_mem_nil _, fun _ _ k hk => ?_⟩
  rw [List.mem_singleton.1 hk]
  exact Solver.not_enabled_of_none hforgets.gone

/-- The constraint that an operation has stored and given back. -/
def stored : Except SolveError ConstraintId → List ConstraintId
  | .ok c => [c]
  | .error _ => []

/-- A constraint that cannot be enabled is removed, and then nothing was switched. -/
theorem ensures_enableOrRemove_complies (fuel : Nat) (c : ConstraintId) :
    Ensures (enableOrRemove fuel c) m fun r m' => Complies (stored r) [] r m.solver m'.solver := by
  unfold enableOrRemove
  rw [ensures_bind, ensures_attempt]
  refine (ensures_enable_complies fuel c).mono ?_
  rintro r m₁ ⟨h₁, hold⟩
  cases r with
  | ok _ => exact (ensures_pure _).2 ⟨h₁.switches, fun _ _ => h₁.isOn _ rfl, fun _ _ => List.forall_mem_nil _⟩
  | error e =>
    simp only [ensures_bind, ensures_attempt]
    refine ((removeConstraint_switches (· ∈ [c]) (· ∈ [c]) fuel
      (List.mem_singleton_self c) m₁).and (ensures_removeConstraint_forgets fuel c)).mono ?_
    rintro cleanup m₂ ⟨hs₂, hforgets⟩
    have hs : m.solver.Switches (· ∈ []) (· ∈ []) m₂.solver := by
      have hs₁ : m.solver.Switches (· ∈ [c]) (· ∈ [c]) m₁.solver :=
        h₁.switches.mono (fun _ hk _ => hk) fun _ hk => absurd hk List.not_mem_nil
      refine ((Switches.transitive _ _).trans hs₁ hs₂).mono (fun k hk hen => ?_) fun k hk hen => ?_
      · rw [List.mem_singleton.1 hk] at hen
        exact absurd hen (Solver.not_enabled_of_none hforgets.gone)
      · rw [List.mem_singleton.1 hk] at hen
        exact absurd hen (hold e rfl)
    cases cleanup with
    | ok _ => exact (ensures_throw _).2 (.of_error hs)
    | error _ =>
      simp only [ensures_bind, ensures_note]
      exact (ensures_throw _).2 (.of_error hs)

/-- Declaring a constraint: if this succeeds, the new constraint alone is switched on. -/
theorem ensures_constrain_complies (fuel : Nat) (d : Definition W T) :
    Ensures (constrain fuel d) m fun r m' => Complies (stored r) [] r m.solver m'.solver := by
  unfold constrain
  rw [ensures_bind]
  intro r m₁ hr
  have h₁ : ∀ ons : List ConstraintId, m.solver.Switches (· ∈ ons) (· ∈ []) m₁.solver :=
    fun ons => insert_switches d m r m₁ hr
  cases r with
  | error e => exact .of_error (h₁ [])
  | ok c => exact (ensures_enableOrRemove_complies fuel c).mono fun _ _ h => h.after (h₁ _)

/-- An observer that is inserted is not enabled. -/
theorem insertObserver_switches (sink : VarId) (inputs : List VarId) (f : Observe W T) :
    Obeys (Switches on off) (insertObserver sink inputs f) := by
  have hT := Switches.transitive (W := W) (T := T) on off
  refine .bind hT (.ask hT _) fun strength => ?_
  refine .bind hT (.query hT fun _ => (Draft.define strength _).mapError .build) fun d => ?_
  refine .bind hT (insert_switches d) fun c => ?_
  refine .bind hT (.changeConstraint hT fun s => ?_) fun _ => .pure hT _
  have hsame := Solver.enabled_modifyConstraint_iff (s := s) (c := c)
    (f := fun x => { x with sink := some sink }) (by intro; rfl)
  exact Solver.switches_of_enabled (fun k hk => .inl ((hsame k).1 hk))
    (fun k hk => .inl ((hsame k).2 hk)) rfl

/-- Observing: if this succeeds, the new constraint alone is switched on. -/
theorem ensures_observe_complies (fuel : Nat) (inputs : List VarId) (f : Observe W T) :
    Ensures (observe fuel inputs f) m fun r m' => Complies (stored r) [] r m.solver m'.solver := by
  have hsink : ∀ on off, Obeys (W := W) (T := T) (Switches on off) newUnassigned := by
    intro on off m
    unfold newUnassigned storeVariable
    simp only [ensures_bind, ensures_query]
    cases m.solver.vars.insert { cell := .unassigned } with
    | error e => exact (Switches.transitive on off).refl _
    | ok p =>
      simp only [Except.mapError, ensures_update, ensures_pure]
      exact Solver.switches_of_constraintAt (fun _ => rfl) rfl
  unfold observe
  simp only [ensures_bind, ensures_attempt]
  intro r m₁ hr
  have h₁ : ∀ ons : List ConstraintId, m.solver.Switches (· ∈ ons) (· ∈ []) m₁.solver :=
    fun ons => hsink _ _ m r m₁ hr
  cases r with
  | error e => exact .of_error (h₁ [])
  | ok sink =>
    simp only
    intro r m₂ hr₂
    have h₂ : ∀ ons : List ConstraintId, m.solver.Switches (· ∈ ons) (· ∈ []) m₂.solver :=
      fun ons => (Switches.transitive _ _).trans (h₁ ons)
        (insertObserver_switches sink inputs f m₁ r m₂ hr₂)
    cases r with
    | ok c => exact (ensures_enableOrRemove_complies fuel c).mono fun _ _ h => h.after (h₂ _)
    | error e =>
      simp only [ensures_bind, ensures_update]
      refine (ensures_throw _).2 (.of_error ?_)
      exact (Switches.transitive _ _).trans (h₂ [])
        (Solver.switches_of_constraintAt (fun _ => rfl) rfl)

/-- The constraint that a value is written through comes and goes. -/
theorem ensures_write_complies (fuel : Nat) (v : VarId) (value : T) :
    Ensures (write fuel v value) m fun r m' => Complies [] [] r m.solver m'.solver := by
  have hT := Switches.transitive (W := W) (T := T) (· ∈ []) (· ∈ [])
  suffices h : Ensures (write fuel v value) m fun _ m' =>
      m.solver.Switches (· ∈ []) (· ∈ []) m'.solver from h.mono fun _ _ hs =>
        ⟨hs, fun _ _ => List.forall_mem_nil _, fun _ _ => List.forall_mem_nil _⟩
  unfold write
  rw [ensures_bind, ensures_getVariable]
  cases m.solver.lookupVariable v with
  | error e => exact hT.refl _
  | ok x =>
    simp only [ensures_bind, ensures_ask]
    split
    · have hρ := switches_frame (W := W) (T := T) (· ∈ []) (· ∈ [])
      refine Obeys.bind hT (.changeVariable hT fun _ => ?_) (fun _ => ?_) m
      · exact Solver.switches_of_constraintAt (fun _ => rfl) rfl
      · exact .bind hT (hρ.count (by intro; rfl)) fun _ => .note hT _
    · rw [writeThrough_eq]
      simp only [ensures_bind, ensures_ask]
      refine (ensures_storeConstraint_switches (· ∈ []) (· ∈ []) rfl).mono ?_
      rintro r m₁ ⟨h₁, hnew⟩
      cases r with
      | error e => exact h₁
      | ok c =>
        -- until it is forgotten, the constraint may be switched on and off
        have hpulse : Obeys (W := W) (T := T) (Switches (· = c) (· = c)) (pulse fuel v c) := by
          refine pulse_obeys (switches_enter (· = c) (· = c) rfl rfl) (fun s => ?_) fuel v
          exact Solver.switches_eraseConstraint rfl (Arena.get?_erase s.constraints c) rfl
        refine ((hpulse m₁).and (ensures_pulse_gone fuel v c)).mono ?_
        rintro r m₂ ⟨h₂, hgone⟩
        have hs₁ : m.solver.Switches (· = c) (· = c) m₁.solver :=
          h₁.mono (fun _ hk => absurd hk List.not_mem_nil) fun _ hk => absurd hk List.not_mem_nil
        refine ((Switches.transitive _ _).trans hs₁ h₂).mono ?_ ?_
        · rintro k rfl hk
          exact absurd hk (Solver.not_enabled_of_none hgone)
        · rintro k rfl hk
          exact absurd hk (hnew k rfl)

/-! ## Groups -/

/-- Undoing members switches off those that were enabled before the failure. -/
theorem undoMembers_switches (on off : ConstraintId → Prop) (fuel : Nat) {cs : List ConstraintId}
    (hcs : ∀ c ∈ cs, off c) :
    Obeys (W := W) (T := T) (Switches on off) (undoMembers fuel cs) := by
  have hT := Switches.transitive (W := W) (T := T) on off
  induction cs with
  | nil => exact .pure hT _
  | cons c cs ih =>
    obtain ⟨hc, hcs⟩ := List.forall_mem_cons.1 hcs
    refine .bind hT (.attempt (disable_switches on off fuel hc)) fun r => ?_
    cases r with
    | ok _ => exact ih hcs
    | error e => exact .bind hT (.note hT _) fun _ => ih hcs

/-- The members are enabled one after the other. As long as this succeeds, whatever was enabled in
the beginning still is; so the members that are disabled after a failure are none of these. -/
theorem ensures_enableMembers_switches (on : ConstraintId → Prop) (fuel : Nat) {s : Solver W T}
    {cs done : List ConstraintId}
    (hon : ∀ c ∈ cs, on c) (hkeep : ∀ k, s.Enabled k → m.solver.Enabled k)
    (hdone : ∀ d ∈ done, ¬ s.Enabled d) :
    Ensures (enableMembers fuel cs done) m fun r m' =>
      m.solver.Switches on (fun k => ¬ s.Enabled k) m'.solver ∧
      ∀ a, r = .ok a → ∀ k, m.solver.Enabled k ∨ k ∈ cs → m'.solver.Enabled k := by
  have hT := Switches.transitive (W := W) (T := T) on fun k => ¬ s.Enabled k
  induction cs generalizing m done with
  | nil => exact (ensures_pure _).2 ⟨hT.refl _, fun _ _ k hk => hk.resolve_right List.not_mem_nil⟩
  | cons c cs ih =>
    obtain ⟨hc, hon⟩ := List.forall_mem_cons.1 hon
    refine .enableMembers_cons (fun _ => ⟨hT.refl _, by rintro _ ⟨⟩⟩) (fun hen => ?_) fun _ hnot => ?_
    · refine (ih hon hkeep hdone).mono ?_
      rintro r m' ⟨hs, hall⟩
      refine ⟨hs, fun a ha k hk => hall a ha k ?_⟩
      rcases hk with hk | hk
      · exact .inl hk
      · refine (List.mem_cons.1 hk).imp_left ?_
        rintro rfl
        exact hen
    · -- the member was not enabled in the beginning, so it may be disabled again
      have hfresh : ¬ s.Enabled c := fun h => hnot (hkeep c h)
      have hdone₁ : ∀ d ∈ c :: done, ¬ s.Enabled d := List.forall_mem_cons.2 ⟨hfresh, hdone⟩
      refine ((ensures_enable_complies fuel c).and (enable_candid fuel c m)).mono ?_
      rintro r m₁ ⟨⟨h₁, _⟩, hfaults⟩
      have hs₁ : m.solver.Switches on (fun k => ¬ s.Enabled k) m₁.solver :=
        h₁.switches.mono (fun k hk _ => List.mem_singleton.1 hk ▸ hc) fun _ hk => absurd hk List.not_mem_nil
      refine ⟨fun hr => ?_, fun e _ => ?_⟩
      · have hkeep₁ : ∀ k, m.solver.Enabled k → m₁.solver.Enabled k := fun k hk =>
          h₁.switches.keeps (Prod.mk.inj (hfaults () hr)).1 hk List.not_mem_nil
        refine (ih hon (fun k hk => hkeep₁ k (hkeep k hk)) hdone₁).mono ?_
        rintro r m' ⟨hs, hall⟩
        refine ⟨hT.trans hs₁ hs, fun b hb k hk => hall b hb k ?_⟩
        rcases hk with hk | hk
        · exact .inl (hkeep₁ k hk)
        · refine (List.mem_cons.1 hk).imp_left ?_
          rintro rfl
          exact h₁.isOn () hr k (List.mem_singleton_self k)
      · refine (undoMembers_switches on (fun k => ¬ s.Enabled k) fuel (fun d hd => ?_) _).mono ?_
        · split at hd
          · exact hdone₁ d hd
          · exact hdone d hd
        · intro r m' hs
          exact ⟨hT.trans hs₁ hs, by cases r <;> rintro _ ⟨⟩⟩

/-- Enabling a group: its members alone are switched on. -/
theorem ensures_enableGroup_complies (fuel : Nat) (g : Group) :
    Ensures (enableGroup fuel g) m fun r m' =>
      Complies g.constraints [] r m.solver m'.solver := by
  unfold enableGroup
  simp only [ensures_bind, ensures_note]
  have hnone : ∀ d ∈ [], ¬ m.solver.Enabled d := fun d hd => absurd hd List.not_mem_nil
  refine (ensures_enableMembers_switches (· ∈ g.constraints) fuel (s := m.solver)
    (m := { m with journal := .enablingGroup g.constraints.length :: m.journal })
    (fun _ => id) (fun _ => id) hnone).mono ?_
  rintro r m' ⟨hs, hall⟩
  refine ⟨hs.mono (fun _ hk _ => hk) fun k hk hen => absurd hen hk, fun a ha k hk => ?_,
    fun _ _ => List.forall_mem_nil _⟩
  exact hall a ha k (.inr hk)

/-- Disabling members switches off no others. -/
theorem disableMembers_switches (on off : ConstraintId → Prop) (fuel : Nat)
    {cs : List ConstraintId} (hcs : ∀ c ∈ cs, off c) (failure : Option SolveError) :
    Obeys (W := W) (T := T) (Switches on off) (disableMembers fuel cs failure) := by
  have hT := Switches.transitive (W := W) (T := T) on off
  induction cs generalizing failure with
  | nil => cases failure with
    | none => exact .pure hT _
    | some e => exact .throw hT e
  | cons c cs ih =>
    obtain ⟨hc, hcs⟩ := List.forall_mem_cons.1 hcs
    refine .bind hT (.attempt (disable_switches on off fuel hc)) fun r => ?_
    cases r with
    | ok _ => exact ih hcs _
    | error e => exact ih hcs _

/-- The members that were disabled are not enabled, even if disabling some of them failed. -/
theorem ensures_disableMembers_off (fuel : Nat) (cs : List ConstraintId)
    (failure : Option SolveError) :
    Ensures (disableMembers fuel cs failure) m fun _ m' => ∀ c ∈ cs, ¬ m'.solver.Enabled c := by
  induction cs generalizing m failure with
  | nil => exact fun _ _ _ c hc => absurd hc List.not_mem_nil
  | cons c cs ih =>
    unfold disableMembers
    rw [ensures_bind, ensures_attempt]
    refine (ensures_disable fuel c).mono ?_
    rintro result m₁ ⟨_, hoff⟩
    -- the members that follow do not switch it on again
    have hrest : ∀ failure, Ensures (disableMembers fuel cs failure) m₁ fun _ m' =>
        ∀ k ∈ c :: cs, ¬ m'.solver.Enabled k := by
      intro failure
      have hwanes := disableMembers_switches (fun _ => False) (· ∈ cs) fuel (fun _ => id) failure m₁
      refine (ih failure |>.and hwanes).mono ?_
      rintro r m' ⟨hcs, hs⟩
      refine List.forall_mem_cons.2 ⟨fun hk => hoff ?_, hcs⟩
      exact (hs.enabled c hk).resolve_right id
    cases result with
    | ok _ => exact hrest _
    | error e => exact hrest _

/-- Disabling a group: its members alone are switched off. -/
theorem ensures_disableGroup_complies (fuel : Nat) (g : Group) :
    Ensures (disableGroup fuel g) m fun r m' =>
      Complies [] g.constraints r m.solver m'.solver := by
  unfold disableGroup
  simp only [ensures_bind, ensures_note]
  refine ((disableMembers_switches (· ∈ []) (· ∈ g.constraints) fuel
    (fun _ => List.mem_reverse.1) none _).and (ensures_disableMembers_off fuel _ none)).mono ?_
  rintro r m' ⟨hs, hoff⟩
  exact ⟨hs, fun _ _ => List.forall_mem_nil _, fun _ _ k hk => hoff k (List.mem_reverse.2 hk)⟩

end SolveM

/-! ## Calls -/

namespace Call

open SolveM (Ensures Complies)

variable {W T : Type} {m m' : Machine W T} {fuel : Nat} {call : Call W T}
  {r : Except SolveError (Answer W T)}

/-- The calls that are about enabling, and writing, which enables for a moment. -/
def switches : Call W T → Bool
  | enable _ | disable _ | write _ _ | constrain _ | stay _ _ | edit _ _ _ | observe _ _
  | removeConstraint _ | enableGroup _ | disableGroup _ => true
  | _ => false

/-- The constraints that a call was asked to enable. Those that make a constraint tell which one it is
if they succeed. -/
def asksOn (call : Call W T) (r : Except SolveError (Answer W T)) : List ConstraintId :=
  match call, r with
  | enable c, _ => [c]
  | enableGroup g, _ => g.constraints
  | constrain _, .ok (.constraint c) | stay _ _, .ok (.constraint c)
  | edit _ _ _, .ok (.constraint c) | observe _ _, .ok (.constraint c) => [c]
  | _, _ => []

/-- The constraints that a call was asked to disable or to remove. -/
def asksOff : Call W T → List ConstraintId
  | disable c | removeConstraint c => [c]
  | disableGroup g => g.constraints
  | _ => []

/-- An operation that ends with an answer complies if the operation does. -/
theorem ensures_complies_answer {α : Type} {op : SolveM W T α} {f : α → Answer W T}
    {off : List ConstraintId} {ons : Except SolveError (Answer W T) → List ConstraintId}
    {onop : Except SolveError α → List ConstraintId}
    (h : Ensures op m fun r m' => Complies (onop r) off r m.solver m'.solver)
    (hok : ∀ a, ons (.ok (f a)) = onop (.ok a)) (herror : ∀ e, ons (.error e) = onop (.error e)) :
    Ensures (do return f (← op)) m fun r m' => Complies (ons r) off r m.solver m'.solver := by
  rw [SolveM.ensures_bind]
  refine h.mono fun r m₁ h₁ => ?_
  cases r with
  | ok a =>
    simp only [SolveM.ensures_pure, hok]
    exact ⟨h₁.switches, fun _ _ => h₁.isOn a rfl, fun _ _ => h₁.isOff a rfl⟩
  | error e =>
    simp only [herror]
    exact .of_error h₁.switches

/-- Every call that is about enabling complies with what it was asked for. -/
theorem ensures_complies (hcall : call.switches = true) :
    Ensures (call.run fuel) m fun r m' =>
      Complies (call.asksOn r) call.asksOff r m.solver m'.solver := by
  cases call with
  | enable c =>
    exact ensures_complies_answer (f := fun _ => .done)
      ((SolveM.ensures_enable_complies fuel c).mono fun _ _ h => h.1) (fun _ => rfl) fun _ => rfl
  | disable c =>
    exact ensures_complies_answer (f := fun _ => .done)
      (SolveM.ensures_disable_complies fuel c) (fun _ => rfl) fun _ => rfl
  | removeConstraint c =>
    exact ensures_complies_answer (f := fun _ => .done)
      (SolveM.ensures_removeConstraint_complies fuel c) (fun _ => rfl) fun _ => rfl
  | constrain d | stay v strength | edit v value strength =>
    exact ensures_complies_answer (SolveM.ensures_constrain_complies fuel _)
      (fun _ => rfl) fun _ => rfl
  | observe inputs f =>
    exact ensures_complies_answer (SolveM.ensures_observe_complies fuel inputs f)
      (fun _ => rfl) fun _ => rfl
  | write v value =>
    exact ensures_complies_answer (f := fun _ => .done)
      (SolveM.ensures_write_complies fuel v value) (fun _ => rfl) fun _ => rfl
  | enableGroup g =>
    exact ensures_complies_answer (f := fun _ => .done)
      (SolveM.ensures_enableGroup_complies fuel g) (fun _ => rfl) fun _ => rfl
  | disableGroup g =>
    exact ensures_complies_answer (f := fun _ => .done)
      (SolveM.ensures_disableGroup_complies fuel g) (fun _ => rfl) fun _ => rfl
  | _ => cases hcall

/-- What the failure of such a call says about a cycle holds after the call. -/
theorem run_truthful (fuel : Nat) (hcall : call.switches = true) :
    SolveM.Truthful (call.run fuel) := by
  have hanswer : ∀ {α : Type} {op : SolveM W T α} {f : α → Answer W T}, SolveM.Truthful op →
      SolveM.Truthful (do return f (← op)) := fun hop => .bind hop fun _ => .pure _
  cases call with
  | enable c => exact hanswer (f := fun _ => .done) (SolveM.enable_truthful fuel c)
  | disable c => exact hanswer (f := fun _ => .done) (SolveM.disable_truthful fuel c)
  | removeConstraint c =>
    exact hanswer (f := fun _ => .done) (SolveM.removeConstraint_truthful fuel c)
  | constrain d | stay v strength | edit v value strength =>
    exact hanswer (SolveM.constrain_truthful fuel _)
  | observe inputs f => exact hanswer (SolveM.observe_truthful fuel inputs f)
  | write v value => exact hanswer (f := fun _ => .done) (SolveM.write_truthful fuel v value)
  | enableGroup g =>
    exact hanswer (f := fun _ => .done)
      (.bind (.note _) fun _ => SolveM.enableMembers_truthful fuel _ _)
  | disableGroup g =>
    exact hanswer (f := fun _ => .done)
      (.bind (.note _) fun _ => SolveM.disableMembers_truthful fuel _)
  | _ => cases hcall

/-- What a call that is about enabling does to the set of enabled constraints. If it succeeds, it has
counted no cycle and no unsatisfiable required constraint, and the constraints that it was asked for
have been added to the set and taken from it, and no others. Whatever it returns, no other constraint
was enabled, and the number of constraints that are not enabled any longer without having been asked
for is at most the number of cycles counted. A failure that names a cycle names a constraint that is
not part of the graph. -/
theorem run_switches (hcall : call.switches = true)
    (hrun : (call.run fuel).exec m = some (r, m')) :
    (∀ a, r = .ok a →
      m'.solver.metrics.cycles = m.solver.metrics.cycles ∧
      m'.solver.metrics.unsatisfiable = m.solver.metrics.unsatisfiable ∧
      ∀ k, m'.solver.Enabled k ↔
        (m.solver.Enabled k ∨ k ∈ call.asksOn r) ∧ k ∉ call.asksOff) ∧
    (∀ k, m'.solver.Enabled k → m.solver.Enabled k ∨ k ∈ call.asksOn r) ∧
    ({k | m.solver.Enabled k ∧ k ∉ call.asksOff ∧ ¬ m'.solver.Enabled k}.Finite ∧
      m.solver.metrics.cycles +
        {k | m.solver.Enabled k ∧ k ∉ call.asksOff ∧ ¬ m'.solver.Enabled k}.ncard ≤
          m'.solver.metrics.cycles) ∧
    ∀ k, r = .error (.cycleDetected k) → ¬ m'.solver.Enabled k := by
  have hcomplies : Complies (call.asksOn r) call.asksOff r m.solver m'.solver :=
    ensures_complies hcall r m' hrun
  refine ⟨?_, hcomplies.switches.enabled,
    ⟨Solver.finite_lost m.solver (· ∈ call.asksOff) m'.solver, hcomplies.switches.cycles⟩, ?_⟩
  · intro a ha
    have hreset : call ≠ resetMetrics := by
      rintro rfl
      cases hcall
    obtain ⟨hcycles, hunsat⟩ := Prod.mk.inj (run_candid fuel hreset m r m' hrun a ha)
    refine ⟨hcycles, hunsat, fun k => ⟨fun hk => ?_, ?_⟩⟩
    · exact ⟨hcomplies.switches.enabled k hk, fun hoff => hcomplies.isOff a ha k hoff hk⟩
    · -- without a cycle nothing is lost, so what was enabled and was not to be switched off still
      -- is
      rintro ⟨hk | hon, hoff⟩
      · exact hcomplies.switches.keeps hcycles hk hoff
      · exact hcomplies.isOn a ha k hon
  · intro k hk
    exact run_truthful fuel hcall m r m' hrun _ hk k rfl

/-- A copy of a variable is enabled while the variable is a copy of the other: the cycle is found, the
older constraint closes it and is lost, the new one is removed again, and the failure names the older
one. -/
theorem run_switches_two_copies : ∃ m m' : Machine Unit Nat,
    Call.runAll 9 [.newVariables [0, 0],
      .constrain (.ofMethod .weak none (.compute ⟨0, 0⟩ [⟨1, 0⟩] .first) ⟨by decide, by decide⟩)]
      ⟨.empty {}, (), []⟩ = some m ∧
    ((Call.constrain (.ofMethod .weak none (.compute ⟨1, 0⟩ [⟨0, 0⟩] .first)
      ⟨by decide, by decide⟩)).run 9).exec m = some (.error (.cycleDetected ⟨0, 0⟩), m') ∧
    m.solver.Enabled ⟨0, 0⟩ ∧ ¬ m'.solver.Enabled ⟨0, 0⟩ ∧ m'.solver.metrics.cycles = 1 ∧
    (∀ k, m'.solver.Enabled k → m.solver.Enabled k ∨ k ∈ []) ∧
    m.solver.metrics.cycles +
      {k | m.solver.Enabled k ∧ k ∉ [] ∧ ¬ m'.solver.Enabled k}.ncard ≤ 1 := by
  have hany : (Call.runAll (W := Unit) (T := Nat) 9 [.newVariables [0, 0],
      .constrain (.ofMethod .weak none (.compute ⟨0, 0⟩ [⟨1, 0⟩] .first) ⟨by decide, by decide⟩)]
      ⟨.empty {}, (), []⟩).any (fun m =>
        ((m.solver.constraintAt? ⟨0, 0⟩).any fun n => n.enabled = true) ∧
        (((Call.constrain (.ofMethod .weak none (.compute ⟨1, 0⟩ [⟨0, 0⟩] .first)
          ⟨by decide, by decide⟩)).run 9).exec m).any fun p =>
            Call.hasFailed (.cycleDetected ⟨0, 0⟩) p.1 ∧ p.2.solver.metrics.cycles = 1) = true := by
    decide +kernel
  simp only [Option.any_eq_true, decide_eq_true_eq] at hany
  obtain ⟨m, hm, ⟨n, hn, hen⟩, ⟨r, m'⟩, hrun, hr, hcycles⟩ := hany
  obtain rfl := eq_error_of_hasFailed hr
  obtain ⟨_, hon, ⟨_, hcard⟩, hnamed⟩ := run_switches rfl hrun
  exact ⟨m, m', hm, hrun, ⟨n, hn, hen⟩, hnamed _ rfl, hcycles, hon, hcycles ▸ hcard⟩

end Call

end DeltaBlue
