import DeltaBlue.Proofs.Resolution
import DeltaBlue.Proofs.Rest

/-!
# How strongly variables are held

The walk strengths of a graph at rest solve equations that can be evaluated in dependency order. So
strengths that nowhere exceed what the equations make of them are nowhere above the walk strengths
(`Rest.le_walkAt`), and two graphs at rest can be compared by seeing what the equations of the one
make of the walk strengths of the other.

In this way it is shown that the installation of a method weakens no variable, if the method's output
was held most weakly of all outputs of the constraint, and changes nothing but what is downstream of
the output; and that the removal of a constraint weakens nothing but what is downstream of what it
determined.
-/

namespace DeltaBlue

/-- Two strengths neither of which is above the other are equal. -/
theorem Strength.le_antisymm {a b : Strength} (h : a ≤ b) (h' : b ≤ a) : a = b :=
  rank_injective (Nat.le_antisymm h h')

/-- What is at most the weaker of two strengths is at most either. -/
theorem Strength.le_weakestOf {a b c : Strength} : a ≤ b.weakestOf c ↔ a ≤ b ∧ a ≤ c := by
  simp only [weakestOf, le_def, lt_def]
  split <;> omega

namespace Definition

variable {W T : Type} {d : Definition W T} {walk walk' : VarId → Strength} {o : VarId}

/-- A constraint holds its output at least at a strength if it insists at this strength and the outputs
of its other methods are held so. -/
theorem le_walkFrom {a : Strength} :
    a ≤ d.walkFrom walk o ↔
      a ≤ d.strength ∧ ∀ m ∈ d.methods, m.output ≠ o → a ≤ walk m.output := by
  -- over any list of methods and from any strength on
  have hfold : ∀ (ms : List (Method W T)) (b : Strength),
      a ≤ ms.foldl (fun held m => held.weakestOf (walk m.output)) b ↔
        a ≤ b ∧ ∀ m ∈ ms, a ≤ walk m.output := by
    intro ms
    induction ms with
    | nil => simp
    | cons m ms ih =>
      intro b
      rw [List.foldl_cons, ih, Strength.le_weakestOf, List.forall_mem_cons, and_assoc]
  unfold walkFrom
  rw [hfold]
  simp only [List.mem_filter, decide_eq_true_eq, and_imp]

/-- Outputs that are held more strongly make the constraint hold its output more strongly. -/
theorem walkFrom_mono (h : ∀ m ∈ d.methods, m.output ≠ o → walk m.output ≤ walk' m.output) :
    d.walkFrom walk o ≤ d.walkFrom walk' o := by
  obtain ⟨hstrength, hwalk⟩ := le_walkFrom.1 (Nat.le_refl (d.walkFrom walk o).rank)
  exact le_walkFrom.2 ⟨hstrength, fun m hm hne => Nat.le_trans (hwalk m hm hne) (h m hm hne)⟩

end Definition

namespace Solver

variable {W T : Type} {s s' s₂ : Solver W T} {cells : Prop} {c k : ConstraintId}
  {node : Constraint W T} {v w : VarId}

/-! ## The equations -/

/-- A variable that no constraint determines is not held. -/
theorem Rest.walkAt_of_free (hrest : s.Rest cells) (h : s.WellFormed)
    (hfree : ∀ k, ¬ s.Determines k v) : s.walkAt v = .weakest := by
  cases hx : s.variableAt? v with
  | none =>
    rw [walkAt, hx]
    rfl
  | some x =>
    rw [walkAt_eq hx]
    refine (hrest.released hx ?_).1
    exact Option.eq_none_iff_forall_ne_some.2 fun k hk => hfree k ((h.determined hx k).1 hk)

/-- A variable that a constraint determines is held as the constraint holds it. -/
theorem Rest.walkAt_of_output (hrest : s.Rest cells) (hnode : s.constraintAt? k = some node)
    (hout : node.output? = some v) : s.walkAt v = node.definition.walkFrom s.walkAt v := by
  obtain ⟨method, hmethod, rfl⟩ := Option.map_eq_some_iff.1 hout
  exact (hrest.settled k hnode hmethod).1

/-- The edges of an acyclic graph can be followed upstream only so far. -/
theorem Acyclic.wellFounded_feeds (hacyclic : s.Acyclic) (h : s.WellFormed) :
    WellFounded s.Feeds := by
  refine wellFounded_of_not_transGen s.finite_variables (fun hf => ?_)
    fun v => (hacyclic v).not_transGen
  obtain ⟨k, node, hnode, hout, _⟩ := hf
  exact h.mentioned hnode _ (Constraint.mem_vars_of_output? hout)

/-- Strengths that nowhere exceed what the equations make of them are nowhere above the walk strengths.
It is enough to look at variables `A` that are fed only by each other. -/
theorem Rest.le_walkAt (hrest : s.Rest cells) (h : s.WellFormed) {A : VarId → Prop}
    {walk : VarId → Strength} (hup : ∀ {v w}, s.Feeds v w → A w → A v)
    (hfree : ∀ {v}, A v → (∀ k, ¬ s.Determines k v) → walk v = .weakest)
    (hdet : ∀ {k node v}, A v → s.constraintAt? k = some node → node.output? = some v →
      walk v ≤ node.definition.walkFrom walk v)
    (hv : A v) : walk v ≤ s.walkAt v := by
  -- by induction upstream: the equation reads variables that feed `v`
  induction v using (hrest.acyclic.wellFounded_feeds h).induction with
  | _ v ih =>
    by_cases hk : ∃ k, s.Determines k v
    · obtain ⟨k, node, hnode, hout⟩ := hk
      have hinputs : ∀ m ∈ node.definition.methods, m.output ≠ v →
          walk m.output ≤ s.walkAt m.output := by
        intro m hm hne
        have hf : s.Feeds m.output v :=
          ⟨k, node, hnode, hout, Definition.output_mem_vars hm, hne⟩
        exact ih _ hf (hup hf hv)
      rw [hrest.walkAt_of_output hnode hout]
      exact Nat.le_trans (hdet hv hnode hout) (Definition.walkFrom_mono hinputs)
    · rw [hfree hv fun k hdet => hk ⟨k, hdet⟩]
      exact Nat.zero_le _

/-! ## Installing a method -/

section Installed

variable {mark : Mark} {i : Nat} {m : Method W T} {x : Variable T}
  (hi : Installed s s' mark c node i m x) (h : s.WellFormed) (hrest : s.Rest cells)
  (hr : s'.Repaints s₂) (hrest₂ : s₂.Rest cells)
include hi

include hr in
/-- The definitions are the same after the installation and the walk that follows it. -/
theorem Installed.definition_eq {n n₂ : Constraint W T} (hn : s.constraintAt? k = some n)
    (hn₂ : s₂.constraintAt? k = some n₂) : n₂.definition = n.definition := by
  rw [hr.constraintAt] at hn₂
  obtain ⟨n', hn', hdeclared, _⟩ := hi.constraint_of hn₂
  obtain rfl := Option.some.inj (hn.symm.trans hn')
  exact (Prod.mk.inj hdeclared).1

include h

include hr in
/-- What is not the output is determined as before. -/
theorem Installed.determines_of_ne (hv : v ≠ m.output) :
    s₂.Determines k v ↔ s.Determines k v := by
  rw [hr.determines, hi.determines_iff h, if_neg hv]

include hrest hr hrest₂ in
/-- An installation weakens nothing, if all outputs of the constraint were held at least as strongly as
that of the method. -/
theorem Installed.walkAt_le
    (hheld : ∀ m' ∈ node.definition.methods, x.walkStrength ≤ s.walkAt m'.output) (v : VarId) :
    s.walkAt v ≤ s₂.walkAt v := by
  have hdetermines := hr.determines.2 hi.determines
  refine hrest₂.le_walkAt ((h.installed hi).repaints hr) (A := fun _ => True)
    (fun _ _ => trivial) (fun {v} _ hfree => ?_) (fun {k node₂ v} _ hnode₂ hout => ?_) trivial
  · -- a variable that is free afterwards was free before
    refine hrest.walkAt_of_free h fun k hk => ?_
    by_cases hv : v = m.output
    · exact hfree c (hv ▸ hdetermines)
    · exact hfree k ((hi.determines_of_ne h hr hv).2 hk)
  · by_cases hv : v = m.output
    · -- the output itself: the constraint holds it no more weakly than it was held
      subst hv
      obtain rfl := ((h.installed hi).repaints hr).determines_unique hdetermines
        ⟨node₂, hnode₂, hout⟩
      rw [hi.definition_eq hr hi.before.1 hnode₂, walkAt_eq hi.output.1]
      exact Definition.le_walkFrom.2 ⟨Nat.le_of_lt hi.output.2.2, fun m' hm' _ => hheld m' hm'⟩
    · obtain ⟨n, hn, hout'⟩ := (hi.determines_of_ne h hr hv).1 ⟨node₂, hnode₂, hout⟩
      rw [hi.definition_eq hr hn hnode₂, ← hrest.walkAt_of_output hn hout']
      exact Nat.le_refl _

include hrest hr hrest₂ in
/-- What is not downstream of the output is held as before. -/
theorem Installed.walkAt_of_not_reaches
    (hheld : ∀ m' ∈ node.definition.methods, x.walkStrength ≤ s.walkAt m'.output)
    (hv : ¬ s'.Reaches m.output v) : s₂.walkAt v = s.walkAt v := by
  refine Strength.le_antisymm ?_ (hi.walkAt_le h hrest hr hrest₂ hheld v)
  have hne : ∀ {v}, ¬ s'.Reaches m.output v → v ≠ m.output := by
    rintro v hv rfl
    exact hv .refl
  refine hrest.le_walkAt h (A := fun v => ¬ s'.Reaches m.output v) (fun hf hw hreach => ?_)
    (fun hv hfree => ?_) (fun {k n v} hv hn hout => ?_) hv
  · exact hw (hreach.tail ((hi.feeds_of_ne h (hne hw)).2 hf))
  · exact hrest₂.walkAt_of_free ((h.installed hi).repaints hr)
      fun k hk => hfree k ((hi.determines_of_ne h hr (hne hv)).1 hk)
  · obtain ⟨n₂, hn₂, hout₂⟩ := (hi.determines_of_ne h hr (hne hv)).2 ⟨n, hn, hout⟩
    rw [← hi.definition_eq hr hn hn₂, ← hrest₂.walkAt_of_output hn₂ hout₂]
    exact Nat.le_refl _

end Installed

/-! ## Leaving and entering the graph -/

/-- The removal of a constraint weakens nothing but what is downstream of what it determined. -/
theorem Detached.walkAt_le (hd : Detached s s' c node) (h : s.WellFormed) (hrest : s.Rest cells)
    (hr : s'.Repaints s₂) (hrest₂ : s₂.Rest cells)
    (hv : ∀ a, node.output? = some a → ¬ s'.Reaches a v) : s.walkAt v ≤ s₂.walkAt v := by
  refine hrest₂.le_walkAt ((h.detached hd).repaints hr)
    (A := fun v => ∀ a, node.output? = some a → ¬ s'.Reaches a v) (fun hf hw a ha hreach => ?_)
    (fun {v} hv hfree => ?_) (fun {k n v} hv hn hout => ?_) hv
  · rw [hr.feeds] at hf
    exact hw a ha (hreach.tail hf)
  · refine hrest.walkAt_of_free h fun k hk => ?_
    by_cases hkc : k = c
    · -- what the constraint determined is downstream of itself
      subst hkc
      obtain ⟨n, hn, hout⟩ := hk
      obtain rfl := Option.some.inj (hd.before.symm.trans hn)
      exact hv v hout .refl
    · exact hfree k (hr.determines.2 ((hd.determines_iff k v).2 ⟨hkc, hk⟩))
  · obtain ⟨hkc, n', hn', hout'⟩ :=
      (hd.determines_iff k v).1 (hr.determines.1 ⟨n, hn, hout⟩)
    -- every other constraint holds its output as before
    rw [hr.constraintAt, hd.constraintAt, if_neg hkc] at hn
    obtain rfl := Option.some.inj (hn.symm.trans hn')
    rw [← hrest.walkAt_of_output hn' hout']
    exact Nat.le_refl _

/-- A constraint without a method in force holds nothing. -/
theorem Entered.walkAt_same (he : Entered s s' c node) (v : VarId) : s'.walkAt v = s.walkAt v := by
  refine (samePaint_of_map (he.variableAt v) fun x => ?_).1
  split <;> exact ⟨rfl, rfl, rfl⟩

end Solver

end DeltaBlue
