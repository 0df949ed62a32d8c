import Mathlib.Combinatorics.SimpleGraph.Acyclic
import DeltaBlue.Proofs.Required

/-!
# Forests of constraints

The incidence graph joins constraints to the variables that they mention. If it is a forest, two
variables of a constraint are linked over other constraints only if they are one variable. So no
method in force reads what is downstream of its own output, and of the variables of an idle
constraint none is downstream of another.

The graph of the enabled constraints only shrinks, except when a constraint enters it; so it is a
forest throughout a call if it is one, together with the constraint that is enabled, whenever the
call enables a constraint (`Solver.ForestWith`).
-/

namespace DeltaBlue

namespace Solver

open Relation

variable {W T : Type}

/-- The graph that joins the constraints with the property `S` to the variables that they mention. -/
def incidence (s : Solver W T) (S : ConstraintId → Prop) : SimpleGraph (ConstraintId ⊕ VarId) :=
  .fromRel fun
    | .inl c, .inr v => S c ∧ s.Mentions c v
    | _, _ => False

/-- The enabled constraints and their variables form a forest. -/
def Forest (s : Solver W T) : Prop := (s.incidence s.Enabled).IsAcyclic

/-- The enabled constraints, the given one, and their variables form a forest. -/
def ForestWith (s : Solver W T) (c : ConstraintId) : Prop :=
  (s.incidence fun k => k = c ∨ s.Enabled k).IsAcyclic

/-- One gets from one variable to the other over constraints with the property `S`. -/
abbrev Linked (s : Solver W T) (S : ConstraintId → Prop) : VarId → VarId → Prop :=
  ReflTransGen fun v w => ∃ j, S j ∧ s.Mentions j v ∧ s.Mentions j w

variable {s s' : Solver W T} {S S' : ConstraintId → Prop} {c k : ConstraintId}
  {node : Constraint W T} {v w : VarId}

/-- A constraint is joined to the variables that it mentions. -/
@[simp] theorem incidence_adj :
    (s.incidence S).Adj (.inl c) (.inr v) ↔ S c ∧ s.Mentions c v := by
  simp [incidence]

/-- A variable is joined to the constraints that mention it. -/
@[simp] theorem incidence_adj_symm :
    (s.incidence S).Adj (.inr v) (.inl c) ↔ S c ∧ s.Mentions c v := by
  rw [SimpleGraph.adj_comm, incidence_adj]

/-- Two variables of a constraint of a forest are not linked over other constraints. -/
theorem eq_of_linked (h : (s.incidence S).IsAcyclic) (hk : S k) (hv : s.Mentions k v)
    (hw : s.Mentions k w) (hlinked : s.Linked (fun j => S j ∧ j ≠ k) v w) : v = w := by
  by_contra hne
  have hbridge := SimpleGraph.isAcyclic_iff_forall_adj_isBridge.1 h (incidence_adj.2 ⟨hk, hv⟩)
  -- without the edge from `k` to `v` there is a way over `w`
  have hedge : ∀ {j u}, S j → s.Mentions j u → j ≠ k ∨ u ≠ v →
      ((s.incidence S).deleteEdges {s(.inl k, .inr v)}).Adj (.inl j) (.inr u) := by
    intro j u hj hu hother
    rw [SimpleGraph.deleteEdges_adj, incidence_adj]
    refine ⟨⟨hj, hu⟩, fun he => ?_⟩
    obtain ⟨rfl, rfl⟩ := by simpa using he
    simp at hother
  have hback : ((s.incidence S).deleteEdges {s(.inl k, .inr v)}).Reachable (.inr v) (.inr w) := by
    clear hw hne
    induction hlinked with
    | refl => exact .rfl
    | tail _ hstep ih =>
      obtain ⟨j, ⟨hj, hjk⟩, hmb, hmu⟩ := hstep
      exact ih.trans ((hedge hj hmb (.inl hjk)).symm.reachable.trans
        (hedge hj hmu (.inl hjk)).reachable)
  exact hbridge ((hedge hk hw (.inr fun e => hne e.symm)).reachable.trans hback.symm)

/-! ## Edges of the dependency graph -/

/-- A constraint mentions what it reads and what it determines. -/
theorem Reads.mentions (h : s.Reads k v w) : s.Mentions k v ∧ s.Mentions k w := by
  obtain ⟨node, hnode, hout, hv, _⟩ := h
  exact ⟨⟨node, hnode, hv⟩, node, hnode, Constraint.mem_vars_of_output? hout⟩

/-- A constraint that determines a variable is enabled. -/
theorem WellFormed.enabled_of_determines (h : s.WellFormed) (hk : s.Determines k v) :
    s.Enabled k := by
  obtain ⟨node, hnode, hout⟩ := hk
  obtain ⟨i, _, hi, _, _⟩ := Constraint.output?_eq_some_iff.1 hout
  exact ⟨node, hnode, (h.enforcing hnode hi).1⟩

/-- A way downstream from `v` need not pass a constraint that determines nothing but `v`. -/
theorem linked_of_reaches (h : s.WellFormed) (hk : ∀ o, s.Determines k o → o = v)
    (hreach : s.Reaches v w) : s.Linked (fun j => s.Enabled j ∧ j ≠ k) v w := by
  -- by induction on the way, from its last edge
  induction hreach with
  | refl => exact .refl
  | @tail b u _ hf ih =>
    obtain ⟨j, hj⟩ := hf
    by_cases hjk : j = k
    · -- an edge of `k` leads back to `v`
      subst hjk
      rw [hk u hj.determines]
    · exact ih.tail ⟨j, ⟨h.enabled_of_determines hj.determines, hjk⟩, hj.mentions⟩

/-- Of the variables of a constraint that determines nothing but `v`, none is downstream of `v`. -/
theorem Forest.eq_of_reaches (hforest : s.Forest) (h : s.WellFormed) (hen : s.Enabled k)
    (hk : ∀ o, s.Determines k o → o = v) (hv : s.Mentions k v) (hw : s.Mentions k w)
    (hreach : s.Reaches v w) : v = w :=
  eq_of_linked hforest hen hv hw (linked_of_reaches h hk hreach)

/-- Of the variables of an idle constraint none is downstream of another. -/
theorem Forest.eq_of_idle (hforest : s.Forest) (h : s.WellFormed) (hidle : s.Idle k)
    (hv : s.Mentions k v) (hw : s.Mentions k w) (hreach : s.Reaches v w) : v = w := by
  obtain ⟨node, hnode, hen, hnone⟩ := hidle
  exact hforest.eq_of_reaches h ⟨node, hnode, hen⟩
    (fun o ho => absurd ho (not_determines hnode hnone o)) hv hw hreach

/-- No variable is downstream of what it feeds. -/
theorem Forest.not_reaches_of_feeds (hforest : s.Forest) (h : s.WellFormed) (hf : s.Feeds v w) :
    ¬ s.Reaches w v := by
  intro hreach
  obtain ⟨k, hk⟩ := hf
  obtain ⟨hv, hw⟩ := hk.mentions
  have he := hforest.eq_of_reaches h (h.enabled_of_determines hk.determines)
    (fun o ho => ho.unique hk.determines) hw hv hreach
  obtain ⟨_, _, _, _, hne⟩ := hk
  exact hne he.symm

/-! ## Changes that add no incidence -/

/-- The constraints with the property `S'` afterwards had the property `S` before, with the same
definitions. -/
def Within (s s' : Solver W T) (S S' : ConstraintId → Prop) : Prop :=
  ∀ k node', S' k → s'.constraintAt? k = some node' →
    S k ∧ ∃ node, s.constraintAt? k = some node ∧ node'.definition = node.definition

/-- What a constraint mentions afterwards it mentioned before. -/
theorem Within.mentions (h : s.Within s' S S') (hk : S' k) (hv : s'.Mentions k v) :
    S k ∧ s.Mentions k v := by
  obtain ⟨node', hnode', hmem⟩ := hv
  obtain ⟨hS, node, hnode, hdef⟩ := h k node' hk hnode'
  exact ⟨hS, node, hnode, hdef ▸ hmem⟩

/-- Variables that are linked afterwards were linked before. -/
theorem Within.linked (h : s.Within s' S S') (hlinked : s'.Linked (fun j => S' j ∧ j ≠ k) v w) :
    s.Linked (fun j => S j ∧ j ≠ k) v w := by
  refine ReflTransGen.mono (fun a b hstep => ?_) _ _ hlinked
  obtain ⟨j, ⟨hj, hjk⟩, ha, hb⟩ := hstep
  exact ⟨j, ⟨(h.mentions hj ha).1, hjk⟩, (h.mentions hj ha).2, (h.mentions hj hb).2⟩

/-- The graph afterwards is part of the graph before. -/
theorem Within.incidence_le (h : s.Within s' S S') : s'.incidence S' ≤ s.incidence S := by
  -- only a constraint and a variable can be joined
  rintro (c | v) (k | w) hadj
  · simp [incidence] at hadj
  · rw [incidence_adj] at hadj ⊢
    exact h.mentions hadj.1 hadj.2
  · rw [incidence_adj_symm] at hadj ⊢
    exact h.mentions hadj.1 hadj.2
  · simp [incidence] at hadj

/-- The enabled constraints were enabled before, with the same definitions. -/
theorem within_of_enabled (h : ∀ k node', s'.constraintAt? k = some node' → node'.enabled = true →
    ∃ node, s.constraintAt? k = some node ∧ node.enabled = true ∧
      node'.definition = node.definition) : s.Within s' s.Enabled s'.Enabled := by
  intro k node' hk hnode'
  obtain ⟨n, hn, hen'⟩ := hk
  obtain rfl := Option.some.inj (hnode'.symm.trans hn)
  obtain ⟨node, hnode, hen, hdef⟩ := h k node' hnode' hen'
  exact ⟨⟨node, hnode, hen⟩, node, hnode, hdef⟩

/-- A change that leaves the constraints as they are adds none. -/
theorem within_of_constraintAt (h : ∀ k, s'.constraintAt? k = s.constraintAt? k) :
    s.Within s' s.Enabled s'.Enabled :=
  within_of_enabled fun k node hnode hen => ⟨node, (h k).symm.trans hnode, hen, rfl⟩

/-- Installing a method enables no constraint. -/
theorem Installed.within {mark : Mark} {i : Nat} {m : Method W T} {x : Variable T}
    (hi : Installed s s' mark c node i m x) : s.Within s' s.Enabled s'.Enabled := by
  refine within_of_enabled fun k node' hnode' hen' => ?_
  obtain ⟨n, hn, hdeclared, henabled⟩ := hi.constraint_of hnode'
  exact ⟨n, hn, henabled ▸ hen', (Prod.mk.inj hdeclared).1⟩

/-- A constraint that leaves the graph leaves the others as they are. -/
theorem Detached.within (hd : Detached s s' c node) : s.Within s' s.Enabled s'.Enabled := by
  refine within_of_enabled fun k node' hnode' hen' => ?_
  obtain ⟨_, hnode⟩ := hd.of_enabled hnode' hen'
  exact ⟨node', hnode, hen', rfl⟩

/-- Propagation enables no constraint. -/
theorem Propagates.within (hp : s.Propagates s') : s.Within s' s.Enabled s'.Enabled := by
  refine within_of_enabled fun k node' hnode' hen' => ?_
  obtain ⟨n, hn, hen⟩ := hp.enabled k ⟨node', hnode', hen'⟩
  have hdeclared := hp.declared k
  rw [hn, hnode', Option.map_some, Option.map_some] at hdeclared
  exact ⟨n, hn, hen, (Prod.mk.inj (Option.some.inj hdeclared)).1⟩

/-- Changes beside the graph enable no constraint. -/
theorem Aside.within (ha : s.Aside s') : s.Within s' s.Enabled s'.Enabled :=
  within_of_enabled fun _ node hnode hen => ⟨node, (ha.constraintAt hen).1 hnode, hen, rfl⟩

/-- A constraint that enters the graph is added to those that were part of it. -/
theorem Entered.within (he : Entered s s' c node) :
    s.Within s' (fun k => k = c ∨ s.Enabled k) s'.Enabled := by
  intro k node' hk hnode'
  obtain ⟨rfl, rfl⟩ | ⟨hkc, hnode⟩ := he.reset.found hnode'
  · exact ⟨.inl rfl, node, he.before.1, rfl⟩
  · obtain ⟨n, hn, hen⟩ := hk
    exact ⟨.inr ⟨n, (he.reset.constraintAt_ne hkc).symm.trans hn, hen⟩, node', hnode, rfl⟩

/-- A forest stays one if no constraint is added to it. -/
theorem Forest.within (hforest : s.Forest) (h : s.Within s' s.Enabled s'.Enabled) : s'.Forest :=
  hforest.anti h.incidence_le

/-- Whether the graph is a forest depends on the constraints only. -/
theorem Forest.of_constraintAt (hforest : s.Forest)
    (h : ∀ k, s'.constraintAt? k = s.constraintAt? k) : s'.Forest :=
  hforest.within (within_of_constraintAt h)

/-- Installing a method keeps a forest. -/
theorem Forest.installed {mark : Mark} {i : Nat} {m : Method W T} {x : Variable T}
    (hforest : s.Forest) (hi : Installed s s' mark c node i m x) : s'.Forest :=
  hforest.within hi.within

/-- A forest from which a constraint is taken is a forest. -/
theorem Forest.detached (hforest : s.Forest) (hd : Detached s s' c node) : s'.Forest :=
  hforest.within hd.within

/-- Propagation keeps a forest. -/
theorem Forest.propagates (hforest : s.Forest) (hp : s.Propagates s') : s'.Forest :=
  hforest.within hp.within

/-- Changes beside the graph keep a forest. -/
theorem Forest.aside (hforest : s.Forest) (ha : s.Aside s') : s'.Forest :=
  hforest.within ha.within

/-- A constraint enters a forest. -/
theorem ForestWith.entered (hforest : s.ForestWith c) (he : Entered s s' c node) : s'.Forest :=
  SimpleGraph.IsAcyclic.anti he.within.incidence_le hforest

/-- A solver without constraints is a forest. -/
theorem forest_empty (config : Config) : (empty config : Solver W T).Forest := by
  have hnone : ∀ c v, ¬ (empty config : Solver W T).Mentions c v := by
    rintro c v ⟨node, hnode, _⟩
    simp at hnode
  refine SimpleGraph.isAcyclic_bot.anti ?_
  rintro (c | v) (k | w) hadj
  · simp [incidence] at hadj
  · exact hnone c w (incidence_adj.1 hadj).2
  · exact hnone k v (incidence_adj_symm.1 hadj).2
  · simp [incidence] at hadj

/-! ## Telling a forest -/

/-- A graph is a forest if no vertex has two neighbours that are not labelled above it: the topmost
vertex of a cycle would have two. -/
theorem isAcyclic_of_label {V : Type} {G : SimpleGraph V} (label : V → Nat)
    (h : ∀ v a b, G.Adj v a → G.Adj v b → label a ≤ label v → label b ≤ label v → a = b) :
    G.IsAcyclic := by
  classical
  intro u p hp
  obtain ⟨v, hv, htop⟩ := p.support.toFinset.exists_max_image label ⟨u, by simp⟩
  rw [List.mem_toFinset] at hv
  -- the same cycle, from its topmost vertex on
  have hcycle : (p.rotate v hv).IsCycle := (SimpleGraph.Walk.isCycle_rotate hv).2 hp
  have hbelow : ∀ w ∈ (p.rotate v hv).support, label w ≤ label v := fun w hw =>
    htop w (List.mem_toFinset.2 ((p.mem_support_rotate_iff v hv).1 hw))
  refine hcycle.snd_ne_penultimate (h v _ _ ?_ ?_ (hbelow _ ?_) (hbelow _ ?_))
  · exact (p.rotate v hv).adj_snd hcycle.not_nil
  · exact ((p.rotate v hv).adj_penultimate hcycle.not_nil).symm
  · exact (p.rotate v hv).getVert_mem_support _
  · exact (p.rotate v hv).getVert_mem_support _

/-- Two live constraints do not share a slot. -/
theorem Mentions.index_inj {j k : ConstraintId} (hj : s.Mentions j v) (hk : s.Mentions k w)
    (h : j.index = k.index) : j = k := by
  obtain ⟨n, hn, _⟩ := hj
  obtain ⟨n', hn', _⟩ := hk
  obtain ⟨slot, hslot, hgen, _⟩ := Arena.get?_eq_some_iff.1 hn
  obtain ⟨slot', hslot', hgen', _⟩ := Arena.get?_eq_some_iff.1 hn'
  rw [h] at hslot
  obtain rfl := Option.some.inj (hslot.symm.trans hslot')
  exact Key.ext h (hgen.symm.trans hgen')

/-- Constraints form a forest if none has two variables in common with those in earlier slots. -/
theorem isAcyclic_of_index (h : ∀ k v w, S k → s.Mentions k v → s.Mentions k w →
    (∃ j, S j ∧ s.Mentions j v ∧ j.index < k.index) →
    (∃ j, S j ∧ s.Mentions j w ∧ j.index < k.index) → v = w) : (s.incidence S).IsAcyclic := by
  -- a variable comes right after the first constraint that mentions it
  let first : VarId → Nat := fun v => sInf {i | ∃ j, S j ∧ s.Mentions j v ∧ j.index = i}
  have hfirst : ∀ {k v}, S k → s.Mentions k v → first v ≤ k.index :=
    fun hk hv => Nat.sInf_le ⟨_, hk, hv, rfl⟩
  have hearlier : ∀ {k v}, S k → s.Mentions k v → first v < k.index →
      ∃ j, S j ∧ s.Mentions j v ∧ j.index < k.index := by
    intro k v hk hv hlt
    obtain ⟨j, hj, hjv, hindex⟩ := Nat.sInf_mem
      (s := {i | ∃ j, S j ∧ s.Mentions j v ∧ j.index = i}) ⟨_, k, hk, hv, rfl⟩
    exact ⟨j, hj, hjv, hindex ▸ hlt⟩
  refine isAcyclic_of_label (Sum.elim (fun k => 2 * k.index) fun v => 2 * first v + 1) ?_
  rintro (k | v) (a | a) (b | b) ha hb hla hlb
  · simp [incidence] at ha
  · simp [incidence] at ha
  · simp [incidence] at hb
  · -- two variables of a constraint
    rw [incidence_adj] at ha hb
    simp only [Sum.elim_inl, Sum.elim_inr] at hla hlb
    rw [h k a b ha.1 ha.2 hb.2 (hearlier ha.1 ha.2 (by omega)) (hearlier hb.1 hb.2 (by omega))]
  · -- two constraints that mention a variable
    rw [incidence_adj_symm] at ha hb
    simp only [Sum.elim_inl, Sum.elim_inr] at hla hlb
    have hfa := hfirst ha.1 ha.2
    have hfb := hfirst hb.1 hb.2
    rw [ha.2.index_inj hb.2 (by omega)]
  · simp [incidence] at hb
  · simp [incidence] at ha
  · simp [incidence] at ha

/-- Whether none of the enabled constraints and the given one has two variables in common with those in
earlier slots. -/
def isForestWith (s : Solver W T) (c : ConstraintId) : Bool :=
  let graph := s.constraints.toList.filter fun p => p.1 = c || p.2.enabled
  graph.all fun p =>
    let shared := p.2.definition.vars.filter fun v =>
      graph.any fun q => q.1.index < p.1.index && q.2.definition.vars.contains v
    shared.all fun v => shared.all fun w => v = w

/-- What the test finds to be a forest is one. -/
theorem forestWith_of_isForestWith (h : s.isForestWith c = true) : s.ForestWith c := by
  -- the test goes through the slots, and these hold all live constraints
  have hgraph : ∀ {k node}, (k = c ∨ s.Enabled k) → s.constraintAt? k = some node →
      (k, node) ∈ s.constraints.toList.filter fun p => p.1 = c || p.2.enabled := by
    intro k node hk hnode
    refine List.mem_filter.2 ⟨Arena.mem_toList.2 hnode, ?_⟩
    rw [Bool.or_eq_true, decide_eq_true_eq]
    refine hk.imp_right ?_
    rintro ⟨n, hn, hen⟩
    obtain rfl := Option.some.inj (hnode.symm.trans hn)
    exact hen
  simp only [isForestWith, List.all_eq_true, decide_eq_true_eq] at h
  refine isAcyclic_of_index fun k v w hk hv hw hsharedv hsharedw => ?_
  obtain ⟨node, hnode, hv⟩ := hv
  obtain ⟨n, hn, hw⟩ := hw
  obtain rfl := Option.some.inj (hnode.symm.trans hn)
  have hshared : ∀ {u}, u ∈ node.definition.vars →
      (∃ j, (j = c ∨ s.Enabled j) ∧ s.Mentions j u ∧ j.index < k.index) →
      u ∈ node.definition.vars.filter fun u =>
        (s.constraints.toList.filter fun p => p.1 = c || p.2.enabled).any fun q =>
          q.1.index < k.index && q.2.definition.vars.contains u := by
    rintro u hu ⟨j, hj, ⟨nj, hnj, huj⟩, hlt⟩
    refine List.mem_filter.2 ⟨hu, List.any_eq_true.2 ⟨(j, nj), hgraph hj hnj, ?_⟩⟩
    simp [hlt, huj]
  exact h (k, node) (hgraph hk hnode) v (hshared hv hsharedv) w (hshared hw hsharedw)

end Solver

end DeltaBlue
