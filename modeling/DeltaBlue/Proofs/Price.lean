import Mathlib.Data.Set.Insert
import Mathlib.Order.Bounds.Basic
import DeltaBlue.Proofs.Declarations
import DeltaBlue.Proofs.Halting
import DeltaBlue.Proofs.Tidying

/-!
# The walk strength is the price of a variable

A constraint that is enabled takes the output that is held most weakly, if it insists on more. The
constraint that has lost this output takes another one in its turn, and so on. If the enabled
constraints form a forest, every constraint of this chain takes an output that is held at the same
strength, the price (`Solver.Offered`): what it has lost was held as weakly as its own strength or its
weakest other output allows, and the marks of the pass keep it from no output but the one that it has
lost. So the chain ends at a variable that no constraint determines, and then the price is the weakest
strength; or it ends at a constraint that insists on the price only and is left without a method.
Constraints of the weakest strength never have a method in force (`Solver.AboveWeakest`), so both
cannot happen at one price.
-/

namespace DeltaBlue

namespace Solver

variable {W T : Type} {s s' : Solver W T} {c : ConstraintId}

/-! ## Constraints of the weakest strength -/

/-- Constraints with a method in force insist on more than the weakest strength. -/
def AboveWeakest (s : Solver W T) : Prop :=
  ∀ c node, s.constraintAt? c = some node → node.isEnforcing = true →
    node.definition.strength ≠ .weakest

/-- If constraints with a method in force are above the weakest strength before, they are so
afterwards. -/
def KeepsAbove (s s' : Solver W T) : Prop := s.AboveWeakest → s'.AboveWeakest

/-- What two operations keep, they keep one after the other. -/
theorem KeepsAbove.transitive : SolveM.Transitive (KeepsAbove (W := W) (T := T)) where
  refl _ := id
  trans h h' hs := h' (h hs)

/-- Only constraints that get a method have to be looked at. -/
theorem keepsAbove_of (h : ∀ c node', s'.constraintAt? c = some node' → node'.isEnforcing = true →
    (∃ node, s.constraintAt? c = some node ∧ node.isEnforcing = true ∧
      node'.definition = node.definition) ∨ node'.definition.strength ≠ .weakest) :
    s.KeepsAbove s' := by
  intro hs c node' hnode' hen
  rcases h c node' hnode' hen with ⟨node, hnode, hen', he⟩ | hown
  · rw [he]
    exact hs c node hnode hen'
  · exact hown

/-- A change of a constraint that keeps its definition, and gives it a method only if it is above the
weakest strength. -/
theorem keepsAbove_modifyConstraint {f : Constraint W T → Constraint W T} {s : Solver W T}
    (hd : ∀ x, (f x).definition = x.definition)
    (hf : ∀ x, s.constraintAt? c = some x → (f x).isEnforcing = true →
      x.isEnforcing = true ∨ x.definition.strength ≠ .weakest) :
    s.KeepsAbove (s.modifyConstraint c f) := by
  refine keepsAbove_of fun k node' hnode' hen => ?_
  rw [constraintAt?_modifyConstraint] at hnode'
  by_cases hk : k = c
  · rw [if_pos hk] at hnode'
    obtain ⟨node, hnode, rfl⟩ := Option.map_eq_some_iff.1 hnode'
    subst hk
    rw [hd]
    exact (hf node hnode hen).imp_left fun h => ⟨node, hnode, h, rfl⟩
  · rw [if_neg hk] at hnode'
    exact .inl ⟨node', hnode', hen, rfl⟩

/-- A constraint that is made has no method in force. -/
theorem keepsAbove_of_made {node : Constraint W T} (hidle : node.enforcing = none)
    (h : ∀ k, s'.constraintAt? k = if k = c then some node else s.constraintAt? k) :
    s.KeepsAbove s' := by
  refine keepsAbove_of fun k node' hnode' hen => ?_
  rw [h] at hnode'
  by_cases hk : k = c
  · rw [if_pos hk] at hnode'
    obtain rfl := Option.some.inj hnode'
    rw [Constraint.isEnforcing, hidle] at hen
    cases hen
  · rw [if_neg hk] at hnode'
    exact .inl ⟨node', hnode', hen, rfl⟩

/-- A constraint that is forgotten has no method in force. -/
theorem keepsAbove_eraseConstraint (c : ConstraintId) (s : Solver W T) :
    s.KeepsAbove { s with constraints := s.constraints.erase c } := by
  refine keepsAbove_of fun k node hnode hen => .inl ⟨node, ?_, hen, rfl⟩
  rw [constraintAt?, Arena.get?_erase] at hnode
  by_cases hk : k = c
  · rw [if_pos hk] at hnode
    cases hnode
  · rw [if_neg hk] at hnode
    exact hnode

end Solver

namespace SolveM

open Solver (KeepsAbove)

variable {W T : Type}

/-- An observer is made without a method in force. -/
theorem insertObserver_keepsAbove (sink : VarId) (inputs : List VarId) (f : Observe W T) :
    Obeys KeepsAbove (insertObserver sink inputs f) := by
  intro m
  refine (ensures_insertObserver_stored sink inputs f).mono ?_
  rintro r m' ⟨_, hstored⟩
  cases r with
  | error e =>
    exact Solver.keepsAbove_of fun k node hnode hen =>
      .inl ⟨node, (hstored k).symm.trans hnode, hen, rfl⟩
  | ok c =>
    obtain ⟨d, _, _, hstored⟩ := hstored
    exact Solver.keepsAbove_of_made rfl hstored

/-- No step of a call gives a method to a constraint of the weakest strength. -/
theorem keepsAbove_frame : CallFrame (W := W) (T := T) KeepsAbove where
  toTransitive := KeepsAbove.transitive
  onPaint _ _ _ := id
  onWork _ _ := id
  onVariable _ _ _ := id
  onForce i c s hi := by
    refine Solver.keepsAbove_modifyConstraint (fun _ => rfl) fun x hx hen => .inr (hi x hx ?_)
    rintro rfl
    cases hen
  onUnsatisfied _ := id
  onBreak c s := by
    exact Solver.keepsAbove_modifyConstraint
      (s := { s with metrics := { s.metrics with cycles := s.metrics.cycles + 1 } })
      (fun _ => rfl) fun _ _ => .inl
  onPass _ := id
  onEnter c s := Solver.keepsAbove_modifyConstraint (fun _ => rfl) fun _ _ => nofun
  onLeave c s := Solver.keepsAbove_modifyConstraint (fun _ => rfl) fun _ _ => .inl
  onChange _ := id
  onMakeVariable _ := id
  onMakeConstraint hins := Solver.keepsAbove_of_made rfl (Arena.get?_of_insert hins).2
  onMakeObserver := insertObserver_keepsAbove
  onForgetVariable _ _ := id
  onForgetConstraint := Solver.keepsAbove_eraseConstraint
  onReset _ := id

end SolveM

/-- After every call constraints with a method in force are above the weakest strength. -/
theorem Run.aboveWeakest {W T : Type} {own : Prop} {config : Config} {plans : List (Plan × Nat)}
    {m : Machine W T} (h : Run own config plans m) : m.solver.AboveWeakest := by
  induction h with
  | start w => exact fun c node hnode => by simp at hnode
  | outside w _ ih => exact ih
  | @call plans m m' r fuel call _ _ hrun ih =>
    exact SolveM.keepsAbove_frame.run call fuel m r m' hrun ih

/-! ## The price -/

/-- No strength is above required. -/
theorem Strength.le_required (a : Strength) : a ≤ .required := by
  cases a <;> decide

/-- The weakest of some strengths is one of them. -/
theorem Strength.foldr_weakestOf_mem {as : List Strength} (h : as ≠ []) :
    as.foldr weakestOf .required ∈ as := by
  induction as with
  | nil => exact absurd rfl h
  | cons a as ih =>
    rw [List.foldr_cons, weakestOf]
    split
    · next hlt =>
      refine List.mem_cons_of_mem a (ih ?_)
      -- nothing is stronger than required
      rintro rfl
      exact absurd hlt (Nat.not_lt_of_le a.le_required)
    · exact List.mem_cons_self

namespace Definition

variable {W T : Type} {d : Definition W T} {walk : VarId → Strength}

/-- The weakest of the walk strengths of the outputs of the methods. -/
def price (d : Definition W T) (walk : VarId → Strength) : Strength :=
  (d.methods.map fun m => walk m.output).foldr Strength.weakestOf .required

/-- A strength is at most the price if it is at most the walk strength of every output. -/
theorem le_price {a : Strength} :
    a ≤ d.price walk ↔ ∀ m ∈ d.methods, a ≤ walk m.output := by
  unfold price
  induction d.methods with
  | nil => exact iff_of_true a.le_required nofun
  | cons m ms ih =>
    rw [List.map_cons, List.foldr_cons, Strength.le_weakestOf, ih, List.forall_mem_cons]

/-- The price is the walk strength of one of the outputs, and of the weakest. -/
theorem price_isLeast : IsLeast {a | ∃ m ∈ d.methods, walk m.output = a} (d.price walk) := by
  refine ⟨?_, ?_⟩
  · exact List.mem_map.1 (Strength.foldr_weakestOf_mem (by simpa using d.nonempty))
  · rintro a ⟨m, hm, rfl⟩
    exact le_price.1 (Nat.le_refl _) m hm

end Definition

namespace Solver

variable {W T : Type} {s s₁ s₂ s' : Solver W T} {cells : Prop} {c k : ConstraintId}
  {node : Constraint W T} {mark : Mark} {w : Strength}

/-- The constraints with a method in force. -/
def Enforcing (s : Solver W T) : Set ConstraintId := {c | s.isEnforcing c = true}

/-- A constraint is among these if it is live and has a method in force. -/
theorem mem_enforcing :
    c ∈ s.Enforcing ↔ ∃ node, s.constraintAt? c = some node ∧ node.isEnforcing = true :=
  Option.any_eq_true _ _

/-- The set depends on the constraints only. -/
theorem enforcing_congr (h : ∀ k, s'.constraintAt? k = s.constraintAt? k) :
    s'.Enforcing = s.Enforcing := by
  ext k
  rw [mem_enforcing, mem_enforcing, h]

/-- An idle constraint has no method in force. -/
theorem Idle.not_mem_enforcing (h : s.Idle c) : c ∉ s.Enforcing := by
  obtain ⟨node, hnode, _, hnone⟩ := h
  rw [mem_enforcing]
  rintro ⟨n, hn, hen⟩
  obtain rfl := Option.some.inj (hnode.symm.trans hn)
  rw [Constraint.isEnforcing, hnone] at hen
  cases hen

/-- The installation gives a method to the constraint and takes one from the constraint it
displaces. -/
theorem Installed.enforcing {i : Nat} {m : Method W T} {x : Variable T}
    (hi : Installed s s₁ mark c node i m x) :
    s₁.Enforcing = insert c (s.Enforcing \ {k | x.determinedBy = some k}) := by
  ext k
  rw [Set.mem_insert_iff, Set.mem_sdiff, mem_enforcing, mem_enforcing, hi.constraintAt]
  by_cases hkc : k = c
  · rw [if_pos hkc]
    exact iff_of_true ⟨_, rfl, rfl⟩ (.inl hkc)
  rw [if_neg hkc, or_iff_right hkc]
  -- of the others only the determiner of the output changes
  by_cases hdis : x.determinedBy = some k
  · rw [if_pos hdis]
    refine iff_of_false ?_ fun hmem => hmem.2 hdis
    rintro ⟨n, hn, hen⟩
    obtain ⟨n', _, rfl⟩ := Option.map_eq_some_iff.1 hn
    cases hen
  · rw [if_neg hdis]
    exact (and_iff_left hdis).symm

/-- If the output was free, no other constraint loses its method. -/
theorem Installed.enforcing_of_free {i : Nat} {m : Method W T} {x : Variable T}
    (hi : Installed s s₁ mark c node i m x) (hdis : x.determinedBy = none) :
    s₁.Enforcing = insert c s.Enforcing := by
  rw [hi.enforcing, hdis]
  simp

/-- If the output was determined, its determiner loses its method. -/
theorem Installed.enforcing_of_displaced {i : Nat} {m : Method W T} {x : Variable T}
    (hi : Installed s s₁ mark c node i m x) (hk : x.determinedBy = some k) :
    s₁.Enforcing = insert c (s.Enforcing \ {k}) := by
  rw [hi.enforcing, hk]
  simp

/-- What determines a variable has a method in force. -/
theorem Determines.mem_enforcing {v : VarId} (h : s.Determines k v) : k ∈ s.Enforcing := by
  obtain ⟨node, hnode, hout⟩ := h
  obtain ⟨i, _, hi, _⟩ := Constraint.output?_eq_some_iff.1 hout
  exact Solver.mem_enforcing.2 ⟨node, hnode, by rw [Constraint.isEnforcing, hi]; rfl⟩

/-- `c` is about to be enforced in a pass over a forest, at the price `w`. -/
structure Offered (cells : Prop) (s : Solver W T) (mark : Mark) (c : ConstraintId) (w : Strength) :
    Prop extends InPass cells s mark c where
  /-- The enabled constraints form a forest. -/
  forest : s.Forest
  /-- The price is the strength of the constraint or that of its weakest unclaimed output, whichever is
  weaker. -/
  price : ∀ {node}, s.constraintAt? c = some node → ∀ a, a ≤ w ↔
    a ≤ node.definition.strength ∧ s.HeldBy mark node.definition.methods a
  /-- No output is held more weakly. -/
  held : ∀ {node}, s.constraintAt? c = some node →
    ∀ m ∈ node.definition.methods, w ≤ s.walkAt m.output

/-- The unclaimed outputs of a live constraint are held at least at a strength, in terms of walk
strengths. -/
theorem heldBy_iff (h : s.WellFormed) (hnode : s.constraintAt? c = some node) {a : Strength} :
    s.HeldBy mark node.definition.methods a ↔
      ∀ m ∈ node.definition.methods, ¬ s.Claimed mark m.output → a ≤ s.walkAt m.output := by
  constructor
  · intro hheld m hm hfree
    obtain ⟨x, hx⟩ := Option.isSome_iff_exists.1
      (h.mentioned hnode _ (Definition.output_mem_vars hm))
    rw [walkAt_eq hx]
    exact hheld m hm x hx fun hmark => hfree ⟨x, hx, hmark⟩
  · intro hheld m hm x hx hmark
    rw [← walkAt_eq hx]
    refine hheld m hm ?_
    rintro ⟨y, hy, hclaimed⟩
    obtain rfl := Option.some.inj (hx.symm.trans hy)
    exact hmark hclaimed

/-- A constraint that finds no method insists on the price and no more. -/
theorem Offered.strength_eq (ho : s.Offered cells mark c w) (hnode : s.constraintAt? c = some node)
    (hheld : s.HeldBy mark node.definition.methods node.definition.strength) :
    node.definition.strength = w :=
  Strength.le_antisymm ((ho.price hnode _).2 ⟨Nat.le_refl _, hheld⟩)
    ((ho.price hnode w).1 (Nat.le_refl _)).1

section Installed

variable {i : Nat} {m : Method W T} {x : Variable T}
  (ho : s.Offered cells mark c w) (h : s.WellFormed) (hi : Installed s s₁ mark c node i m x)
include ho hi

/-- The output that is taken is held at the price. -/
theorem Offered.walkStrength_eq : x.walkStrength = w := by
  refine Strength.le_antisymm ?_ ?_
  · exact (ho.price hi.before.1 _).2 ⟨Nat.le_of_lt hi.output.2.2, hi.weakest⟩
  · rw [← walkAt_eq hi.output.1]
    exact ho.held hi.before.1 m (Definition.mem_of_method? hi.method)

/-- No output of the constraint is held more weakly than the one that is taken. -/
theorem Offered.held_of_installed :
    ∀ m' ∈ node.definition.methods, x.walkStrength ≤ s.walkAt m'.output := by
  rw [ho.walkStrength_eq hi]
  exact ho.held hi.before.1

/-- If no constraint is displaced, the price is the weakest strength. -/
theorem Offered.eq_weakest (hdis : x.determinedBy = none) : w = .weakest := by
  rw [← ho.walkStrength_eq hi]
  exact (ho.released hi.output.1 hdis).1

include h in
/-- The constraint that is displaced is about to be enforced at the same price. -/
theorem Offered.displaced (hpasses : s₁.passes = s.passes) (hr : s₁.Repaints s₂)
    (hrest₂ : s₂.Rest cells) (hk : x.determinedBy = some k) :
    (s₂.modifyVariable m.output fun y => { y with mark := mark }).Offered cells mark k w := by
  have h₂ := (h.installed hi).repaints hr
  have hheld := ho.held_of_installed hi
  have hsame : ∀ v, (s₂.modifyVariable m.output fun y => { y with mark := mark }).walkAt v =
      s₂.walkAt v := fun v => walkAt_marked v m.output
  -- the price is what it was held at
  obtain ⟨n, hn, hout⟩ := (h.determined hi.output.1 k).1 hk
  have hprice : w = n.definition.walkFrom s.walkAt m.output := by
    rw [← ho.walkStrength_eq hi, ← walkAt_eq hi.output.1, ho.walkAt_of_output hn hout]
  -- only this output is claimed, and the others are held as before
  have hclaimed : ∀ n', s₂.constraintAt? k = some n' → ∀ v ∈ n'.definition.vars,
      (s₂.modifyVariable m.output fun y => { y with mark := mark }).Claimed mark v ↔
        v = m.output := by
    intro n' hn' v hv
    exact ho.forest.claimed_iff ho.toInPass h hi hk
      ⟨n', (hr.constraintAt k).symm.trans hn', hv⟩ hr
  have hothers : ∀ n', s₂.constraintAt? k = some n' → ∀ m' ∈ n'.definition.methods,
      m'.output ≠ m.output → s₂.walkAt m'.output = s.walkAt m'.output := by
    intro n' hn' m' hm' hne
    refine hi.walkAt_of_not_reaches h ho.toRest hr hrest₂ hheld fun hreach => hne ?_
    exact ((ho.forest.installed hi).eq_of_idle (h.installed hi) (hi.displaced_idle h hk)
      (hi.displaced_mentions h hk)
      ⟨n', (hr.constraintAt k).symm.trans hn', Definition.output_mem_vars hm'⟩ hreach).symm
  have hle : ∀ n', s₂.constraintAt? k = some n' → ∀ a, a ≤ w ↔ a ≤ n'.definition.strength ∧
      ∀ m' ∈ n'.definition.methods, m'.output ≠ m.output → a ≤ s₂.walkAt m'.output := by
    intro n' hn' a
    rw [hprice, ← hi.definition_eq hr hn hn', Definition.le_walkFrom]
    refine and_congr_right fun _ => forall₃_congr fun m' hm' hne => ?_
    rw [hothers n' hn' m' hm' hne]
  refine { toInPass := ho.toInPass.displaced hi h hpasses hr hrest₂ hk, forest := ?_, price := ?_,
           held := ?_ }
  · exact (ho.forest.installed hi).of_constraintAt hr.constraintAt
  · intro n' hn' a
    rw [heldBy_iff (h₂.marked m.output mark) hn', hle n' hn' a]
    refine and_congr_right fun _ => forall₂_congr fun m' hm' => ?_
    rw [hclaimed n' hn' _ (Definition.output_mem_vars hm'), hsame]
  · intro n' hn' m' hm'
    rw [hsame]
    -- the output that was lost is held at least at the price now, the others are held as before
    by_cases hne : m'.output = m.output
    · rw [hne, ← ho.walkStrength_eq hi, ← walkAt_eq hi.output.1]
      exact hi.walkAt_le h ho.toRest hr hrest₂ hheld m.output
    · exact ((hle n' hn' w).1 (Nat.le_refl _)).2 m' hm' hne

end Installed

/-- A constraint that insists on more than one of its outputs is held at is offered it at the price. -/
theorem Sound.offered (h : s.Sound cells) (hpasses : s.passes + 1 < 2 ^ 64) (hforest : s.Forest)
    (hnode : s.constraintAt? c = some node)
    (hlt : node.definition.price s.walkAt < node.definition.strength) :
    ({ s with passes := s.passes + 1 } : Solver W T).Offered cells (.ofPass (s.passes + 1)) c
      (node.definition.price s.walkAt) where
  toInPass := h.inPass hpasses c
  forest := hforest.of_constraintAt fun _ => rfl
  price := by
    intro n hn a
    obtain rfl := Option.some.inj (hnode.symm.trans hn)
    rw [heldBy_iff h.toWellFormed.nextPass hn, Definition.le_price]
    -- nothing is claimed yet
    constructor
    · intro ha
      refine ⟨?_, fun m hm _ => ha m hm⟩
      exact Nat.le_trans (Definition.le_price.2 ha) (Nat.le_of_lt hlt)
    · exact fun ha m hm => ha.2 m hm (h.unclaimed hpasses m.output)
  held := by
    intro n hn m hm
    obtain rfl := Option.some.inj (hnode.symm.trans hn)
    exact Definition.le_price.1 (Nat.le_refl _) m hm

/-- What enforcing `c` at the price `w` comes to: another constraint is displaced, to be enforced at the
same price; or none is, and the price is the weakest strength; or `c` insists on the price only and is
left. -/
def Traded (cells : Prop) (s s' : Solver W T) (mark : Mark) (c : ConstraintId) (w : Strength) :
    Except SolveError (Option ConstraintId) → Prop
  | .error _ => False
  | .ok none => w = .weakest ∧ s'.Enforcing = insert c s.Enforcing ∨
    (∃ node, s.constraintAt? c = some node ∧ node.definition.strength = w) ∧
      s'.Enforcing = s.Enforcing
  | .ok (some k) => s'.WellFormed ∧ s'.Idle k ∧ s'.Offered cells mark k w ∧ s.Redeclares s' ∧
    k ∈ s.Enforcing ∧ s'.Enforcing = insert c (s.Enforcing \ {k})

/-- What enabling `c` at the price `w` does to the constraints with a method in force: `c` is one of
them then, and if the price is above the weakest strength, one that insists on the price is none any
more. -/
def Paid (s s' : Solver W T) (c : ConstraintId) (w : Strength) : Prop :=
  (w = .weakest → s'.Enforcing = insert c s.Enforcing) ∧
  (w ≠ .weakest → ∃ k ∈ s.Enforcing,
    (∃ node, s.constraintAt? k = some node ∧ node.definition.strength = w) ∧
    s'.Enforcing = insert c (s.Enforcing \ {k}))

/-- In the chain that began with `c` at the price `w`, it is now `k` that has no method. -/
structure Chain (cells : Prop) (s s' : Solver W T) (mark : Mark) (c k : ConstraintId)
    (w : Strength) : Prop where
  /-- The records agree. -/
  wellFormed : s'.WellFormed
  /-- The constraint has no method. -/
  idle : s'.Idle k
  /-- It is about to be enforced at the price. -/
  offered : s'.Offered cells mark k w
  /-- The definitions are the same. -/
  redeclares : s.Redeclares s'
  /-- The constraint is the first one, or had a method in force. -/
  mem : k ∈ insert c s.Enforcing
  /-- All others of these have a method in force. -/
  enforcing : s'.Enforcing = insert c s.Enforcing \ {k}

/-- The chain begins with the constraint that is added, which is idle. -/
theorem Chain.start (h : s.WellFormed) (hidle : s.Idle c) (ho : s.Offered cells mark c w) :
    s.Chain cells s mark c c w where
  wellFormed := h
  idle := hidle
  offered := ho
  redeclares := Redeclares.transitive.refl s
  mem := Set.mem_insert c _
  enforcing := (Set.insert_sdiff_self_of_notMem hidle.not_mem_enforcing).symm

/-- When the chain goes on, the constraint that was displaced takes the place of the one before. -/
theorem Chain.next {j : ConstraintId} (hc : s.Chain cells s₁ mark c k w)
    (ht : Traded cells s₁ s₂ mark k w (.ok (some j))) : s.Chain cells s₂ mark c j w := by
  obtain ⟨hwf, hidle, ho, hr, hmem, henforcing⟩ := ht
  rw [hc.enforcing] at hmem henforcing
  refine ⟨hwf, hidle, ho, Redeclares.transitive.trans hc.redeclares hr, hmem.1, henforcing.trans ?_⟩
  rw [Set.insert_sdiff_singleton_comm (Ne.symm hmem.2), Set.insert_sdiff_singleton,
    Set.insert_eq_of_mem hc.mem]

/-- The chain ends where no constraint is displaced, or at one that insists on the price only, and never
at the first constraint, which insists on more. -/
theorem Chain.paid (hc : s.Chain cells s₁ mark c k w) (habove : s.AboveWeakest)
    (hnode : s.constraintAt? c = some node) (hlt : w < node.definition.strength)
    (ht : Traded cells s₁ s₂ mark k w (.ok none)) : s.Paid s₂ c w := by
  rcases ht with ⟨rfl, henforcing⟩ | ⟨⟨n, hn, hstrength⟩, henforcing⟩
  · refine ⟨fun _ => ?_, fun hne => absurd rfl hne⟩
    rw [henforcing, hc.enforcing, Set.insert_sdiff_singleton, Set.insert_eq_of_mem hc.mem]
  · have hdeclared := hc.redeclares k
    rw [hn, Option.map_some] at hdeclared
    obtain ⟨n₀, hn₀, he⟩ := Option.map_eq_some_iff.1 hdeclared.symm
    have hstrength₀ : n₀.definition.strength = w := by
      rw [(Prod.mk.inj he).1, hstrength]
    -- the first constraint insists on more than the price
    have hne : k ≠ c := by
      rintro rfl
      obtain rfl := Option.some.inj (hnode.symm.trans hn₀)
      exact absurd hlt (hstrength₀ ▸ Nat.lt_irrefl _)
    have hmem : k ∈ s.Enforcing := (Set.mem_insert_iff.1 hc.mem).resolve_left hne
    refine ⟨fun hweakest => ?_, fun _ => ⟨k, hmem, ⟨n₀, hn₀, hstrength₀⟩, ?_⟩⟩
    · obtain ⟨n', hn', hen⟩ := mem_enforcing.1 hmem
      obtain rfl := Option.some.inj (hn₀.symm.trans hn')
      exact absurd (hstrength₀.trans hweakest) (habove k n₀ hn₀ hen)
    · rw [henforcing, hc.enforcing, Set.insert_sdiff_singleton_comm hne.symm]

end Solver

/-- What can be seen of a variable: its cell, how strongly it is held, whether it is constant, and what
determines it. -/
def Variable.standing {T : Type} (x : Variable T) :
    Cell T × Strength × Bool × Option ConstraintId :=
  (x.cell, x.walkStrength, x.constant, x.determinedBy)

/-! ## Entering and leaving the graph -/

namespace Solver

variable {W T : Type} {s s₁ s₂ s' : Solver W T} {c k : ConstraintId} {node : Constraint W T}
  {mark : Mark} {w : Strength}

/-- A constraint that enters the graph has no method in force before and afterwards. -/
theorem Entered.enforcing (he : Entered s s' c node) (h : s.WellFormed) :
    s'.Enforcing = s.Enforcing := by
  ext k
  by_cases hkc : k = c
  · subst hkc
    refine iff_of_false he.idle.not_mem_enforcing fun hmem => ?_
    obtain ⟨n, hn, hen⟩ := mem_enforcing.1 hmem
    obtain rfl := Option.some.inj (he.before.1.symm.trans hn)
    obtain ⟨i, hi⟩ := Option.isSome_iff_exists.1 hen
    exact absurd ((h.enforcing hn hi).1.symm.trans he.before.2) Bool.true_eq_false_eq_False
  · rw [mem_enforcing, mem_enforcing, he.reset.constraintAt_ne hkc]

/-- A constraint that enters the graph has no method in force. -/
theorem Entered.aboveWeakest (he : Entered s s' c node) (h : s.AboveWeakest) : s'.AboveWeakest := by
  intro k n hn hen
  obtain ⟨_, rfl⟩ | ⟨_, hn⟩ := he.reset.found hn
  · cases hen
  · exact h k n hn hen

/-- What is paid after entering is paid by constraints that were there before. -/
theorem Entered.paid (he : Entered s s₁ c node) (h : s.WellFormed) (hp : s₁.Paid s₂ c w) :
    s.Paid s₂ c w := by
  unfold Paid at hp
  rw [he.enforcing h] at hp
  refine ⟨hp.1, fun hw => ?_⟩
  obtain ⟨k, hk, ⟨n, hn, hstrength⟩, henforcing⟩ := hp.2 hw
  refine ⟨k, hk, ⟨n, ?_, hstrength⟩, henforcing⟩
  have hkc : k ≠ c := by
    rintro rfl
    exact he.idle.not_mem_enforcing (he.enforcing h ▸ hk)
  exact (he.reset.constraintAt_ne hkc).symm.trans hn

/-- Entering the graph changes the record of incident constraints only. -/
theorem Entered.standing (he : Entered s s' c node) (v : VarId) :
    (s'.variableAt? v).map Variable.standing = (s.variableAt? v).map Variable.standing := by
  rw [he.variableAt, Option.map_map]
  congr 1
  funext x
  rw [Function.comp_apply]
  split <;> rfl

/-- A constraint without a method that leaves the graph vacates nothing. -/
theorem Detached.standing (hd : Detached s s' c node) (hidle : node.enforcing = none) (v : VarId) :
    (s'.variableAt? v).map Variable.standing = (s.variableAt? v).map Variable.standing := by
  rw [hd.variableAt, Constraint.output?_eq_none hidle, Option.map_map]
  congr 1
  funext x
  simp only [Function.comp_apply, reduceCtorEq, if_false]
  split <;> rfl

/-- Entering the graph does not weaken what blocks the constraint. -/
theorem Entered.blocked (he : Entered s s' c node) (hb : s.Blocked c) : s'.Blocked c := by
  obtain ⟨n, hn, hheld⟩ := hb
  obtain rfl := Option.some.inj (he.before.1.symm.trans hn)
  refine ⟨_, he.reset.constraintAt_self, fun m hm => ?_⟩
  rw [he.walkAt_same]
  exact hheld m hm

/-- A blocked constraint is given no method. -/
theorem Installed.not_blocked {i : Nat} {m : Method W T} {x : Variable T}
    (hi : Installed s s₁ mark c node i m x) : ¬ s.Blocked c := by
  rintro ⟨n, hn, hheld⟩
  obtain rfl := Option.some.inj (hi.before.1.symm.trans hn)
  have hle := hheld m (Definition.mem_of_method? hi.method)
  rw [walkAt_eq hi.output.1] at hle
  exact absurd hi.output.2.2 (Nat.not_lt_of_le hle)

end Solver

namespace SolveM

open Solver (Sound Offered)

variable {W T : Type} {m m' : Machine W T} {cells : Prop} {c : ConstraintId}
  {node : Constraint W T} {mark : Mark} {w : Strength} {fuel : Nat}

/-- Enforcing a constraint at a price displaces at this price, or ends the chain. -/
theorem ensures_enforce_traded {remove : ConstraintId → SolveM W T Unit} (h : m.solver.WellFormed)
    (hidle : m.solver.Idle c) (ho : m.solver.Offered cells mark c w) (hw : w ≠ .required) :
    Ensures (enforce remove fuel mark c) m fun r m' =>
      Solver.Traded cells m.solver m'.solver mark c w r := by
  obtain ⟨node, hnode, hen, hnone⟩ := hidle
  refine (ensures_enforcement remove fuel mark h hnode hen hnone).mono fun r m' hcase => ?_
  cases hcase with
  | refused hreq _ hheld => exact hw ((ho.strength_eq hnode hheld).symm.trans hreq)
  | left _ halike hheld =>
    exact .inr ⟨⟨node, hnode, ho.strength_eq hnode hheld⟩,
      Solver.enforcing_congr halike.constraintAt⟩
  | @enforced m₁ m₂ i method x hi hpasses _ hsweep =>
    have hr := sweep_repaints mark fuel _ m₁ _ m₂ hsweep
    have h₂ := (h.installed hi).repaints hr
    obtain ⟨hw₂, hswept⟩ := ensures_sweep_installed h hi ho.settled _ m₂ hsweep
    have hrest₂ := ho.toInPass.swept hi h hpasses hw₂ hswept
    have henforcing : (m₂.solver.modifyVariable method.output fun y =>
        { y with mark := mark }).Enforcing = m₁.solver.Enforcing :=
      Solver.enforcing_congr hr.constraintAt
    cases hdis : x.determinedBy with
    | none => exact .inl ⟨ho.eq_weakest hi hdis, henforcing.trans (hi.enforcing_of_free hdis)⟩
    | some k =>
      obtain ⟨n, hn, hidle⟩ := hi.displaced_idle h hdis
      refine ⟨h₂.marked method.output mark, ⟨n, (hr.constraintAt k).trans hn, hidle⟩,
        ho.displaced h hi hpasses hr hrest₂ hdis, fun j => ?_, ?_,
        henforcing.trans (hi.enforcing_of_displaced hdis)⟩
      · exact (congrArg _ (hr.constraintAt j)).trans (hi.declared j)
      · exact ((h.determined hi.output.1 k).1 hdis).mem_enforcing
  | @cycle m₁ m₂ _ i method x closing a _ hi _ _ hsweep _ =>
    -- the sweep would have come back to something claimed
    obtain ⟨_, _, hclaimed, hbelow, _⟩ := ensures_sweep_installed h hi ho.settled _ m₂ hsweep
    obtain ⟨k, hk, o, hout, hreach⟩ := hbelow
    obtain rfl := OrderedSet.mem_singleton.1 hk
    obtain rfl := hout.unique hi.determines
    exact absurd hclaimed (ho.forest.not_claimed_of_reaches ho.toInPass h hi hreach)

/-- The cascade of a pass over a forest ends with the price paid. -/
theorem ensures_displace_paid {remove : ConstraintId → SolveM W T Unit} {steps : Nat}
    (h : m.solver.WellFormed) (hidle : m.solver.Idle c) (ho : m.solver.Offered cells mark c w)
    (habove : m.solver.AboveWeakest) (hnode : m.solver.constraintAt? c = some node)
    (hlt : w < node.definition.strength) :
    Ensures (displace remove fuel mark steps c) m fun r m' =>
      r = .ok () ∧ m.solver.Paid m'.solver c w := by
  have hw : w ≠ .required := by
    rintro rfl
    exact absurd hlt (Nat.not_lt_of_le (Strength.le_required _))
  -- the chain is the invariant of the cascade
  refine ensures_displace_of_enforce
    (J := fun k m₁ => m.solver.Chain cells m₁.solver mark c k w) ?_ (.start h hidle ho)
  intro k m₁ hc
  refine (ensures_enforce_traded hc.wellFormed hc.idle hc.offered hw).mono fun r m₂ ht => ?_
  match r, ht with
  | .ok none, ht => exact ⟨rfl, hc.paid habove hnode hlt ht⟩
  | .ok (some j), ht => exact hc.next ht

/-- Adding a constraint to a forest begins the chain at its price. -/
theorem ensures_add_paid (h : m.solver.Sound cells) (hpasses : m.solver.passes + 1 < 2 ^ 64)
    (hforest : m.solver.Forest) (habove : m.solver.AboveWeakest) (hidle : m.solver.Idle c)
    (hnode : m.solver.constraintAt? c = some node)
    (hlt : node.definition.price m.solver.walkAt < node.definition.strength) :
    Ensures (add fuel c) m fun r m' => r = .ok () ∧
      m.solver.Paid m'.solver c (node.definition.price m.solver.walkAt) := by
  refine ensures_add_of_displace fun fuel => ?_
  exact ensures_displace_paid
    (m := ⟨{ m.solver with passes := m.solver.passes + 1 }, m.world, m.journal⟩)
    h.toWellFormed.nextPass hidle (h.offered hpasses hforest hnode hlt) habove hnode hlt

/-- Enabling a constraint that insists on more than one of its outputs is held at. -/
theorem ensures_enable_paid (h : m.solver.Sound cells) (hpasses : m.solver.passes + 1 < 2 ^ 64)
    (hforest : m.solver.ForestWith c) (habove : m.solver.AboveWeakest)
    (hnode : m.solver.constraintAt? c = some node) (hoff : node.enabled = false)
    (hlt : node.definition.price m.solver.walkAt < node.definition.strength) :
    Ensures (enable fuel c) m fun r m' => r = .ok () ∧
      m.solver.Paid m'.solver c (node.definition.price m.solver.walkAt) := by
  refine ensures_enable h hnode hoff fun m₁ h₁ he hp₁ _ _ _ => ?_
  have hsame : m₁.solver.walkAt = m.solver.walkAt := funext he.walkAt_same
  have hnode₁ := (he.constraintAt c).trans (if_pos rfl)
  have hadd : Ensures (add fuel c) m₁ _ := ensures_add_paid h₁ (hp₁ ▸ hpasses)
    (hforest.entered he) (he.aboveWeakest habove) he.idle hnode₁ (hsame ▸ hlt)
  rw [hsame] at hadd
  exact ensures_settle_cases hadd (fun _ hpaid => ⟨rfl, he.paid h.toWellFormed hpaid.2⟩)
    (fun _ _ hr => by cases hr.1) fun _ _ _ hr => by cases hr.1

/-! ## A constraint that cannot pay -/

/-- Enforcing a blocked constraint changes nothing, and fails if the constraint is required. -/
theorem ensures_displace_blocked {remove : ConstraintId → SolveM W T Unit} {steps : Nat}
    (h : m.solver.WellFormed) (hidle : m.solver.Idle c) (hb : m.solver.Blocked c)
    (hnode : m.solver.constraintAt? c = some node) :
    Ensures (displace remove fuel mark steps c) m fun r m' =>
      (r = if node.definition.strength = .required then .error (.unsatisfiableRequired c)
        else .ok ()) ∧ m.solver.Alike m'.solver := by
  obtain ⟨n, hn, hen, hnone⟩ := hidle
  obtain rfl := Option.some.inj (hnode.symm.trans hn)
  refine ensures_displace_of_enforce (J := fun k m₁ => k = c ∧ m₁ = m) ?_ ⟨rfl, rfl⟩
  rintro _ _ ⟨rfl, rfl⟩
  refine (ensures_enforcement remove fuel mark h hnode hen hnone).mono fun r m' hcase => ?_
  cases hcase with
  | refused hreq halike =>
    rw [if_pos hreq]
    exact ⟨rfl, halike⟩
  | left hreq halike =>
    rw [if_neg hreq]
    exact ⟨rfl, halike⟩
  | enforced hi => exact absurd hb hi.not_blocked
  | cycle hi => exact absurd hb hi.not_blocked

/-- Adding a blocked constraint changes no node. -/
theorem ensures_add_blocked (h : m.solver.WellFormed) (hidle : m.solver.Idle c)
    (hb : m.solver.Blocked c) (hnode : m.solver.constraintAt? c = some node) :
    Ensures (add fuel c) m fun r m' =>
      (r = if node.definition.strength = .required then .error (.unsatisfiableRequired c)
        else .ok ()) ∧
      (∀ k, m'.solver.constraintAt? k = m.solver.constraintAt? k) ∧
      ∀ v, m'.solver.variableAt? v = m.solver.variableAt? v := by
  refine ensures_add_of_displace fun fuel => ?_
  refine (ensures_displace_blocked
    (m := ⟨{ m.solver with passes := m.solver.passes + 1 }, m.world, m.journal⟩) h.nextPass hidle
    hb hnode).mono ?_
  rintro r m' ⟨hr, halike⟩
  exact ⟨hr, halike.constraintAt, halike.variableAt⟩

/-- Enabling a constraint that is blocked changes nothing but the constraint, and fails if it is
required. -/
theorem ensures_enable_blocked (h : m.solver.Sound cells) (hb : m.solver.Blocked c)
    (hnode : m.solver.constraintAt? c = some node) (hoff : node.enabled = false) :
    Ensures (enable fuel c) m fun r m' =>
      (r = if node.definition.strength = .required then .error (.unsatisfiableRequired c)
        else .ok ()) ∧
      (∀ k, m'.solver.constraintAt? k = if k = c then
        some { node with enabled := node.definition.strength ≠ .required, enforcing := none }
        else m.solver.constraintAt? k) ∧
      ∀ v, (m'.solver.variableAt? v).map Variable.standing =
        (m.solver.variableAt? v).map Variable.standing := by
  refine ensures_enable h hnode hoff fun m₁ h₁ he _ _ _ _ => ?_
  have hnode₁ := (he.constraintAt c).trans (if_pos rfl)
  have hadd : Ensures (add fuel c) m₁ _ :=
    ensures_add_blocked h₁.toWellFormed he.idle (he.blocked hb) hnode₁
  refine ensures_settle_cases hadd ?_ ?_ ?_
  · rintro m₂ ⟨hr, hconstraints, hvariables⟩
    have hreq : node.definition.strength ≠ .required := by
      intro hreq
      rw [if_pos hreq] at hr
      cases hr
    refine ⟨hr, fun k => ?_, fun v => by rw [hvariables, he.standing]⟩
    rw [hconstraints, he.constraintAt]
    simp only [hreq, ne_eq, not_false_eq_true, decide_true]
  · -- the enabling is taken back
    rintro failed m₂ ⟨hr, hconstraints, hvariables⟩
    by_cases hreq : node.definition.strength = .required
    · rw [if_pos hreq] at hr
      obtain rfl := SolveError.unsatisfiableRequired.inj (Except.error.inj hr)
      refine (ensures_rollBackEnable_self ((hconstraints failed).trans hnode₁) rfl).mono ?_
      rintro _ m₃ ⟨rfl, hd⟩
      refine ⟨(if_pos hreq).symm, fun k => ?_, fun v => ?_⟩
      · rw [hd.constraintAt, hconstraints, he.constraintAt]
        by_cases hk : k = failed
        · simp [hk, hreq]
        · simp only [if_neg hk]
      · rw [hd.standing rfl, hvariables, he.standing]
    · rw [if_neg hreq] at hr
      cases hr
  · rintro e m₂ hother ⟨hr, _⟩
    split at hr
    · exact absurd (Except.error.inj hr) (hother c)
    · cases hr

end SolveM

namespace Run

variable {W T : Type} {own : Prop} {config : Config} {plans : List (Plan × Nat)} {m : Machine W T}
  {c : ConstraintId} {node : Constraint W T}

/-- Enabling a constraint that makes a forest with the enabled ones depends on the smallest walk strength
among its outputs. If the constraint insists on more, it gets a method; no other constraint gets one that
had none, and if the smallest walk strength is not the weakest strength, exactly one of this strength
loses its own. Otherwise the constraint gets none and nothing else changes: the enabling is taken back
with an error if the constraint is required, and succeeds if not. -/
theorem enable_at_price (h : Run own config plans m) (hpasses : m.solver.passes + 1 < 2 ^ 64)
    (hnode : m.solver.constraintAt? c = some node) (hoff : node.enabled = false)
    (hforest : m.solver.ForestWith c) :
    ∃ w, IsLeast {a | ∃ method ∈ node.definition.methods, m.solver.walkAt method.output = a} w ∧
      (w < node.definition.strength → (Call.enable c).EndsIn m fun r m' =>
        r = .ok .done ∧ m.solver.Paid m'.solver c w) ∧
      (node.definition.strength ≤ w → (Call.enable c).EndsIn m fun r m' =>
        (r = if node.definition.strength = .required then .error (.unsatisfiableRequired c)
          else .ok .done) ∧
        (∀ k, m'.solver.constraintAt? k = if k = c then
          some { node with enabled := node.definition.strength ≠ .required, enforcing := none }
          else m.solver.constraintAt? k) ∧
        ∀ v, (m'.solver.variableAt? v).map Variable.standing =
          (m.solver.variableAt? v).map Variable.standing) := by
  have hsound := h.sound.1
  refine ⟨_, Definition.price_isLeast, fun hlt => ?_, fun hle => ?_⟩
  · refine Call.endsIn_of_done (fun _ => rfl)
      (fun _ => SolveM.enable_stopsOnForest hsound hforest) fun fuel => ?_
    refine (SolveM.ensures_enable_paid hsound hpasses hforest h.aboveWeakest hnode hoff hlt).mono ?_
    rintro _ m' ⟨rfl, hpaid⟩
    exact ⟨rfl, hpaid⟩
  · refine Call.endsIn_of_done (fun _ => rfl)
      (fun _ => SolveM.enable_stopsOnForest hsound hforest) fun fuel => ?_
    have hb : m.solver.Blocked c :=
      ⟨node, hnode, fun m hm => Nat.le_trans hle (Definition.le_price.1 (Nat.le_refl _) m hm)⟩
    refine (SolveM.ensures_enable_blocked hsound hb hnode hoff).mono ?_
    rintro _ m' ⟨rfl, hsame⟩
    refine ⟨?_, hsame⟩
    split <;> rfl

/-- A variable that is held weakly, two relations that pass this on to a third variable, and a constraint
that would hold the third one. -/
def heldWeakly : List (Call Unit Nat) :=
  [.newVariables [0, 0, 0], .constrain (.stay .weak ⟨0, 0⟩),
    .constrain (.relation .required ⟨0, 0⟩ [⟨1, 0⟩] [] .first),
    .constrain (.relation .medium ⟨1, 0⟩ [⟨2, 0⟩] [] .first), .insert (.edit .strong none ⟨2, 0⟩ 7)]

/-- When the third variable is taken, both relations turn round, and a constraint of weak strength loses
its method. -/
theorem enable_at_price_weakly : ∃ m : Machine Unit Nat,
    Call.runAll 9 heldWeakly ⟨.empty {}, (), []⟩ = some m ∧ m.solver.passes + 1 < 2 ^ 64 ∧
    m.solver.ForestWith ⟨3, 0⟩ ∧
    (Call.enable ⟨3, 0⟩).EndsIn m fun r m' => r = .ok .done ∧ ∃ k ∈ m.solver.Enforcing,
      (∃ node, m.solver.constraintAt? k = some node ∧ node.definition.strength = .weak) ∧
      m'.solver.Enforcing = insert ⟨3, 0⟩ (m.solver.Enforcing \ {k}) := by
  have hany : (Call.runAll 9 heldWeakly ⟨.empty {}, (), []⟩).any (fun m =>
      m.solver.passes + 1 < 2 ^ 64 ∧ m.solver.isForestWith ⟨3, 0⟩ ∧
      m.solver.walkAt ⟨2, 0⟩ = .weak ∧
      (m.solver.constraintAt? ⟨3, 0⟩).any fun node => node.enabled = false ∧
        node.definition.strength = .strong ∧
        node.definition.methods.map Method.output = [⟨2, 0⟩]) = true := by
    decide +kernel
  simp only [Option.any_eq_true, decide_eq_true_eq] at hany
  obtain ⟨m, hm, hpasses, hforest, hwalk, node, hnode, hoff, hstrength, houtputs⟩ := hany
  have hforest := Solver.forestWith_of_isForestWith hforest
  have hstart : Run False {} [] (⟨.empty {}, (), []⟩ : Machine Unit Nat) := .start ()
  obtain ⟨plans, h⟩ := runAll hstart (by decide) hm
  obtain ⟨w, hleast, hpays, _⟩ := enable_at_price h hpasses hnode hoff hforest
  -- its only output is held weakly
  obtain rfl : w = .weak := by
    obtain ⟨method, hmethod, rfl⟩ := hleast.1
    have hmem := List.mem_map_of_mem (f := Method.output) hmethod
    rw [houtputs, List.mem_singleton] at hmem
    rw [hmem, hwalk]
  refine ⟨m, hm, hpasses, hforest, ?_⟩
  obtain ⟨hreturns, hends⟩ := hpays (by rw [hstrength]; decide)
  exact ⟨hreturns.mono fun r m' hpaid => ⟨hpaid.1, hpaid.2.2 (by decide)⟩,
    fun fuel => (hends fuel).mono fun r m' hpaid => ⟨hpaid.1, hpaid.2.2 (by decide)⟩⟩

end Run

end DeltaBlue
