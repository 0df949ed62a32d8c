import DeltaBlue.Proofs.Hierarchy
import DeltaBlue.Proofs.Switching
import DeltaBlue.Proofs.Writing

/-!
# Orderly graphs

A graph is orderly if it is sound and tidy, marks have not run out, and no constraint of the weakest
strength has a method in force. To enable a constraint with which an orderly graph is a forest succeeds
unless the constraint is required and blocked, and to disable one succeeds. Either leaves an orderly
graph in which exactly that constraint was switched (`Solver.Toggled`). A required constraint is not
blocked if its price is lower.

Constraints are stored and erased, enabled and disabled by the calls that make and remove constraints
and write values. On forests all of these calls return.
-/

namespace DeltaBlue

namespace Solver

variable {W T : Type} {s s' : Solver W T} {c k : ConstraintId} {node : Constraint W T}

/-- The settings are kept, and passes are counted forward. -/
def Forward (s s' : Solver W T) : Prop := s'.config = s.config ∧ s.passes ≤ s'.passes

/-- Passes that two operations count forward are counted forward by both together. -/
theorem Forward.transitive : SolveM.Transitive (Forward (W := W) (T := T)) where
  refl _ := ⟨rfl, Nat.le_refl _⟩
  trans h h' := ⟨h'.1.trans h.1, Nat.le_trans h.2 h'.2⟩

/-- The graph is at rest with every idle constraint blocked, and marks have not run out. -/
structure Orderly (s : Solver W T) : Prop extends Sound True s where
  /-- Marks have not run out. -/
  passes_lt : s.passes < 2 ^ 64
  /-- The enabled constraints form a forest, and every idle one of them is blocked and not required. -/
  tidy : s.Tidy []
  /-- No constraint of the weakest strength has a method in force. -/
  above : s.AboveWeakest

/-- As marks have not run out, the graph is at rest. -/
theorem Orderly.atRest (h : s.Orderly) : s.Rest True := h.rest h.passes_lt

/-- The variables and constraints are the same, and exactly the given constraints are enabled. -/
structure Toggled (s s' : Solver W T) (on : ConstraintId → Prop) : Prop where
  /-- The variables and constraints are the same. -/
  stands : s.Stands s'
  /-- The constraints that are enabled. -/
  enabled : ∀ k, s'.Enabled k ↔ on k

/-- If nothing is done, what is enabled is enabled. -/
theorem Toggled.refl (s : Solver W T) {on : ConstraintId → Prop} (hon : ∀ k, s.Enabled k ↔ on k) :
    s.Toggled s on := ⟨Stands.transitive.refl s, hon⟩

/-- A constraint that stands keeps its definition and its sink. -/
theorem Stands.constraint_of (h : s.Stands s') (hnode : s.constraintAt? c = some node) :
    ∃ node', s'.constraintAt? c = some node' ∧ node'.definition = node.definition ∧
      node'.sink = node.sink := by
  have hc := h.declared c
  rw [hnode, Option.map_some] at hc
  obtain ⟨node', hnode', he⟩ := Option.map_eq_some_iff.1 hc
  exact ⟨node', hnode', congrArg Prod.fst he, congrArg Prod.snd he⟩

/-- Of two graphs with the same variables and constraints either stands in the other. -/
theorem Stands.symm (h : s.Stands s') : s'.Stands s :=
  ⟨fun c => (h.declared c).symm, fun v => (h.live v).symm⟩

/-- When no more than one constraint was enabled, the methods still keep the condition if its methods
do. -/
theorem Tame.of_stands {P : VarId → Cell T → Prop} (h : s.Tame P) (hstands : s.Stands s')
    (hen : ∀ k, s'.Enabled k → s.Enabled k ∨ k = c)
    (hkeeps : ∀ node, s.constraintAt? c = some node → ∀ m ∈ node.definition.methods, m.Keeps P) :
    s'.Tame P := by
  intro k node' hnode' henabled m hm
  obtain ⟨node, hnode, hd, _⟩ := hstands.symm.constraint_of hnode'
  rw [← hd] at hm
  rcases hen k ⟨node', hnode', henabled⟩ with ⟨n, hn, hon⟩ | rfl
  · obtain rfl := Option.some.inj (hnode.symm.trans hn)
    exact h k node hnode hon m hm
  · exact hkeeps node hnode m hm

/-- What makes a forest with a constraint is a forest when no other constraint is enabled. -/
theorem ForestWith.of_stands (h : s.ForestWith c) (hstands : s.Stands s')
    (hen : ∀ k, s'.Enabled k → s.Enabled k ∨ k = c) : s'.Forest := by
  refine SimpleGraph.IsAcyclic.anti ?_ h
  refine Within.incidence_le fun k node' hk hnode' => ⟨(hen k hk).symm, ?_⟩
  obtain ⟨node, hnode, hd, _⟩ := hstands.symm.constraint_of hnode'
  exact ⟨node, hnode, hd.symm⟩

/-! ## Stored and erased constraints -/

/-- A solver without constraints is orderly. -/
theorem orderly_empty (config : Config) : (empty config : Solver W T).Orderly where
  toSound := sound_empty config
  passes_lt := Nat.two_pow_pos 64
  tidy := tidy_empty config
  above _ _ hnode := by cases hnode

/-- What leaves the constraints as they are leaves an orderly graph, as long as marks do not run
out. -/
theorem Orderly.aside (h : s.Orderly) (hsound : s'.Sound True) (ha : s.Aside s')
    (hconstraints : ∀ k, s'.constraintAt? k = s.constraintAt? k) (hlt : s'.passes < 2 ^ 64) :
    s'.Orderly where
  toSound := hsound
  passes_lt := hlt
  tidy := h.tidy.aside ha
  above c node hnode := h.above c node (hconstraints c ▸ hnode)

/-- A constraint that is stored without being enabled leaves an orderly graph. -/
theorem Orderly.shelved (h : s.Orderly) (hs : s.Shelved True s' c node) (hidle : node.enforcing = none) :
    s'.Orderly where
  toSound := hs.sound
  passes_lt := hs.passes ▸ h.passes_lt
  tidy := h.tidy.aside hs.aside
  above := keepsAbove_of_made hidle hs.constraintAt h.above

/-- A constraint that is erased when it is not enabled leaves an orderly graph. -/
theorem Orderly.erased (h : s.Orderly) (he : s.Erased s' c) (hoff : ¬ s.Enabled c) : s'.Orderly where
  toSound := h.toSound.erased he hoff
  passes_lt := he.passes ▸ h.passes_lt
  tidy := h.tidy.aside (he.beside hoff).toAside
  above k node hnode henf := by
    by_cases hk : k = c
    · rw [hk, he.gone] at hnode
      cases hnode
    · exact h.above k node (he.constraintAt_ne hk ▸ hnode) henf

/-- The constraints that were there before are there still. -/
theorem Shelved.constraint_of {cells : Prop} {n : Constraint W T} (hs : s.Shelved cells s' c node)
    (hn : s.constraintAt? k = some n) : s'.constraintAt? k = some n := by
  refine (hs.constraintAt_ne ?_).trans hn
  rintro rfl
  cases hs.fresh.symm.trans hn

/-- Storing a constraint enables none. -/
theorem Shelved.enabled_iff {cells : Prop} (hs : s.Shelved cells s' c node)
    (hoff : node.enabled = false) : s'.Enabled k ↔ s.Enabled k := by
  unfold Enabled
  constructor
  · rintro ⟨n, hn, hen⟩
    obtain ⟨_, rfl⟩ | ⟨_, hn⟩ := hs.found hn
    · cases hoff.symm.trans hen
    · exact ⟨n, hn, hen⟩
  · rintro ⟨n, hn, hen⟩
    exact ⟨n, hs.constraint_of hn, hen⟩

/-- Storing a constraint leaves the methods of the enabled ones as they are. -/
theorem Shelved.tame {cells : Prop} {P : VarId → Cell T → Prop} (hs : s.Shelved cells s' c node)
    (hoff : node.enabled = false) (h : s.Tame P) : s'.Tame P := by
  refine h.of_enabled fun k n hn hen => ?_
  obtain ⟨_, rfl⟩ | ⟨_, hn⟩ := hs.found hn
  · cases hoff.symm.trans hen
  · exact ⟨n, hn, hen, rfl⟩

/-- Of the enabled constraints only the erased one is missing. -/
theorem Erased.enabled_iff (he : s.Erased s' c) : s'.Enabled k ↔ s.Enabled k ∧ k ≠ c := by
  unfold Enabled
  by_cases hk : k = c
  · rw [hk, he.gone]
    exact iff_of_false (fun ⟨_, hn, _⟩ => by cases hn) fun h => h.2 rfl
  · rw [he.constraintAt_ne hk, and_iff_left hk]

end Solver

namespace SolveM

open Solver (Orderly Toggled Forward Stands)

variable {W T : Type} {m : Machine W T} {c : ConstraintId} {node : Constraint W T} {cells : Prop}
  {fuel : Nat}

/-- Making an observer counts no pass. -/
theorem insertObserver_forward (sink : VarId) (inputs : List VarId) (f : Observe W T) :
    Obeys Forward (insertObserver sink inputs f) := by
  have hT := Forward.transitive (W := W) (T := T)
  have hstore : ∀ node : Constraint W T, Obeys Forward (storeConstraint node) := by
    intro node
    refine .bind hT (.query hT _) fun p => .bind hT (.update fun s => ?_) fun _ => .pure hT _
    exact ⟨rfl, Nat.le_refl _⟩
  unfold insertObserver declare ofBuild
  refine .bind hT (.ask hT _) fun a => .bind hT (.query hT _) fun d => .bind hT ?_ fun c => ?_
  · refine .bind hT (.forM hT fun v => ?_) fun _ => hstore _
    exact .bind hT (.getVariable hT v) fun _ => .pure hT _
  · exact .bind hT (.changeConstraint hT fun s => ⟨rfl, Nat.le_refl _⟩) fun _ => .pure hT _

/-- No call changes the settings, and none takes a pass back. -/
theorem forward_frame : CallFrame (W := W) (T := T) Forward where
  toTransitive := Forward.transitive
  onPaint _ _ _ := ⟨rfl, Nat.le_refl _⟩
  onWork _ _ := ⟨rfl, Nat.le_refl _⟩
  onVariable _ _ _ := ⟨rfl, Nat.le_refl _⟩
  onForce _ _ _ _ := ⟨rfl, Nat.le_refl _⟩
  onUnsatisfied _ := ⟨rfl, Nat.le_refl _⟩
  onBreak _ _ := ⟨rfl, Nat.le_refl _⟩
  onPass _ := ⟨rfl, Nat.le_succ _⟩
  onEnter _ _ := ⟨rfl, Nat.le_refl _⟩
  onLeave _ _ := ⟨rfl, Nat.le_refl _⟩
  onChange _ := ⟨rfl, Nat.le_refl _⟩
  onMakeVariable _ := ⟨rfl, Nat.le_refl _⟩
  onMakeConstraint _ := ⟨rfl, Nat.le_refl _⟩
  onMakeObserver := insertObserver_forward
  onForgetVariable _ _ := ⟨rfl, Nat.le_refl _⟩
  onForgetConstraint _ _ := ⟨rfl, Nat.le_refl _⟩
  onReset _ := ⟨rfl, Nat.le_refl _⟩

/-- One operation after the other, the first of which succeeds unless marks run out. -/
theorem Ensures.bind_ok {α β : Type} {op : SolveM W T α} {f : α → SolveM W T β}
    {Q : Except SolveError β → Machine W T → Prop} (hf : ∀ a, Obeys Forward (f a))
    (h : Ensures op m fun r m₁ => m₁.solver.passes < 2 ^ 64 → ∃ a, r = .ok a ∧
      Ensures (f a) m₁ fun r m' => m'.solver.passes < 2 ^ 64 → Q r m') :
    Ensures (op >>= f) m fun r m' => m'.solver.passes < 2 ^ 64 → Q r m' := by
  rw [ensures_bind]
  refine h.mono fun r m₁ hdone => ?_
  cases r with
  | error e =>
    intro hlt
    obtain ⟨_, ⟨⟩, _⟩ := hdone hlt
  | ok a =>
    intro r m' hrun hlt
    obtain ⟨_, ⟨⟩, hrest⟩ := hdone (Nat.lt_of_le_of_lt (hf a m₁ r m' hrun).2 hlt)
    exact hrest r m' hrun hlt

/-! ## Enabling and disabling -/

/-- Adding a constraint begins a pass. -/
theorem ensures_add_passes (c : ConstraintId) :
    Ensures (add fuel c) m fun _ m' => m.solver.passes + 1 ≤ m'.solver.passes := by
  have hforward := forward_frame (W := W) (T := T).toPassFrame
  refine ensures_add_of_displace fun fuel => ?_
  refine (displace_obeys hforward (fun k => ?_) fuel _ fuel c _).mono fun _ _ h => h.2
  exact withdraw_obeys hforward (add_obeys hforward fuel) fuel k

/-- Enabling a constraint that is not enabled begins a pass. -/
theorem ensures_enable_passes (h : m.solver.Sound cells) (hnode : m.solver.constraintAt? c = some node)
    (hoff : node.enabled = false) :
    Ensures (enable fuel c) m fun _ m' => m.solver.passes + 1 ≤ m'.solver.passes := by
  refine ensures_enable h hnode hoff fun m₁ _ _ hp _ _ _ => ?_
  rw [← hp]
  refine ensures_settle_cases (ensures_add_passes c) (fun _ h => h) (fun failed m₂ hle => ?_)
    fun _ _ _ h => h
  refine (rollBackEnable_obeys forward_frame.toPassFrame fuel (forward_frame.onLeave c) failed
    m₂).mono fun _ _ h => Nat.le_trans hle h.2

/-- Enabling a constraint with which an orderly graph is a forest succeeds, unless the constraint is
required and its price is too. -/
theorem ensures_enable_ok (h : m.solver.Orderly) (hforest : m.solver.ForestWith c)
    (hnode : m.solver.constraintAt? c = some node) (hoff : node.enabled = false)
    (hfit : node.definition.strength = .required →
      node.definition.price m.solver.walkAt < .required) :
    Ensures (enable fuel c) m fun r m' => m'.solver.passes < 2 ^ 64 → r = .ok () := by
  intro r m' hrun hlt
  -- either the constraint gets a method, or it is blocked and left without one
  by_cases hprice : node.definition.price m.solver.walkAt < node.definition.strength
  · have hpasses := ensures_enable_passes h.toSound hnode hoff r m' hrun
    exact (ensures_enable_paid h.toSound (Nat.lt_of_le_of_lt hpasses hlt) hforest h.above hnode hoff
      hprice r m' hrun).1
  · have hblocked : m.solver.Blocked c :=
      ⟨node, hnode, Definition.le_price.1 (Nat.le_of_not_lt hprice)⟩
    obtain ⟨hr, _⟩ := ensures_enable_blocked h.toSound hblocked hnode hoff r m' hrun
    rw [if_neg fun hreq => hprice (by rw [hreq]; exact hfit hreq)] at hr
    exact hr

/-- It leaves an orderly graph in which the constraint is enabled. -/
theorem ensures_enable_orderly (h : m.solver.Orderly) (hforest : m.solver.ForestWith c)
    (hnode : m.solver.constraintAt? c = some node)
    (hfit : node.enabled = false → node.definition.strength = .required →
      node.definition.price m.solver.walkAt < .required) :
    Ensures (enable fuel c) m fun r m' => m'.solver.passes < 2 ^ 64 → r = .ok () ∧ m'.solver.Orderly ∧
      m.solver.Toggled m'.solver fun k => m.solver.Enabled k ∨ k = c := by
  by_cases hoff : node.enabled = false
  · intro r m' hrun hlt
    obtain rfl := ensures_enable_ok h hforest hnode hoff (hfit hoff) r m' hrun hlt
    obtain ⟨htidy, hcycles, _⟩ := ensures_enable_tidy h.toSound h.tidy hforest _ m' hrun hlt
    obtain ⟨hcomplies, _⟩ := ensures_enable_complies fuel c _ m' hrun
    refine ⟨rfl, ⟨(enable_keeps fuel c m h.toSound _ m' hrun).1, hlt, htidy, ?_⟩, ?_, fun k => ?_⟩
    · exact enable_obeys (keepsAbove_frame.enterFrame c) fuel m _ m' hrun h.above
    · exact enable_obeys (stands_frame c) fuel m _ m' hrun
    · refine ⟨fun hk => (hcomplies.switches.enabled k hk).imp_right List.mem_singleton.1, ?_⟩
      rintro (hk | rfl)
      · exact hcomplies.switches.keeps hcycles hk List.not_mem_nil
      · exact hcomplies.isOn () rfl k (List.mem_singleton.2 rfl)
  · -- there is nothing to do
    have hen : node.enabled = true := by simpa using hoff
    rw [enable_eq, ensures_bind]
    refine .getConstraint hnode ?_
    simp only [hen, if_true]
    refine (ensures_pure _).2 fun _ => ⟨rfl, h, .refl _ fun k => (or_iff_left_of_imp ?_).symm⟩
    rintro rfl
    exact ⟨node, hnode, hen⟩

/-- Disabling a constraint of an orderly graph succeeds and leaves an orderly graph in which the
constraint is not enabled. -/
theorem ensures_disable_orderly (h : m.solver.Orderly) (hnode : m.solver.constraintAt? c = some node) :
    Ensures (disable fuel c) m fun r m' => m'.solver.passes < 2 ^ 64 → r = .ok () ∧ m'.solver.Orderly ∧
      m.solver.Toggled m'.solver fun k => m.solver.Enabled k ∧ k ≠ c := by
  intro r m' hrun hlt
  obtain ⟨htidy, hcycles, hok⟩ := ensures_disable_tidy h.toSound h.tidy r m' hrun hlt
  obtain rfl := hok (by rw [hnode]; rfl)
  have hcomplies := ensures_disable_complies fuel c _ m' hrun
  refine ⟨rfl, ⟨(disable_keeps fuel c m h.toSound _ m' hrun).1, hlt, htidy, ?_⟩, ?_, fun k => ?_⟩
  · exact disable_obeys (keepsAbove_frame.enterFrame c).toLeaveFrame fuel m _ m' hrun h.above
  · exact disable_obeys (stands_frame c).toLeaveFrame fuel m _ m' hrun
  · constructor
    · refine fun hk => ⟨(hcomplies.switches.enabled k hk).resolve_right List.not_mem_nil, ?_⟩
      rintro rfl
      exact hcomplies.isOff () rfl k (List.mem_singleton.2 rfl) hk
    · exact fun hk => hcomplies.switches.keeps hcycles hk.1 (mt List.mem_singleton.1 hk.2)

section

variable {P : VarId → Cell T → Prop}

/-- Enabling a constraint whose methods keep the condition leaves all cells guarded. -/
theorem ensures_enable_guarded (h : m.solver.Sound cells) (hg : m.solver.Guarded P)
    (hkeeps : ∀ node, m.solver.constraintAt? c = some node →
      ∀ method ∈ node.definition.methods, method.Keeps P) :
    Ensures (enable fuel c) m fun _ m' => m'.solver.Guarded P := by
  refine (ensures_enable_lasts (guarded_lasts P) h hg fun node m' he _ => ?_).mono fun _ _ hkept =>
    (hkept.of_not_lost not_false).2
  exact hg.entered he (hkeeps node he.before.1)

/-- Disabling a constraint leaves all cells guarded. -/
theorem ensures_disable_guarded (h : m.solver.WellFormed) (hg : m.solver.Guarded P) :
    Ensures (disable fuel c) m fun _ m' => m'.solver.Guarded P := by
  refine (ensures_disable_lasts (guarded_lasts P) h hg fun node m' hd _ => ?_).mono fun _ _ hkept =>
    (hkept.of_not_lost not_false).2
  exact hd.guarded hg.2 fun k n _ hn hen => hg.1 k n hn hen

end

/-! ## Making and removing constraints -/

/-- A constraint on variables that exist is stored, if there is room for it. -/
theorem ensures_insert_shelved {d : Definition W T} (h : m.solver.Sound cells)
    (hlive : ∀ v ∈ d.vars, (m.solver.variableAt? v).isSome) :
    Ensures (insert d) m fun r m' =>
      match r with
      | .ok c => m.solver.Shelved cells m'.solver c { definition := d }
      | .error e => m.solver.constraints.size = Arena.maxSlots ∧
        e = .arena (.capacityExceeded Arena.maxSlots) ∧ m' = m := by
  unfold insert
  rw [ensures_bind]
  refine (ensures_lookups d.vars).mono ?_
  rintro r _ ⟨rfl, hr⟩
  obtain rfl := hr.2 hlive
  exact ensures_storeConstraint_shelved rfl rfl hlive h

/-- A constraint is made, if there is room for it, and enabled. If this fails, what happens then does
not take back passes. -/
theorem Ensures.constrain {d : Definition W T} {Q : Except SolveError ConstraintId → Machine W T → Prop}
    (h : m.solver.Sound cells) (hlive : ∀ v ∈ d.vars, (m.solver.variableAt? v).isSome)
    (hfull : m.solver.constraints.size = Arena.maxSlots →
      Q (.error (.arena (.capacityExceeded Arena.maxSlots))) m)
    (hmade : ∀ c m₁, m.solver.Shelved cells m₁.solver c { definition := d } →
      Ensures (enable fuel c) m₁ fun r m₂ => (r = .ok () → Q (.ok c) m₂) ∧
        ∀ e, r = .error e → ∀ e' m₃, m₂.solver.passes ≤ m₃.solver.passes → Q (.error e') m₃) :
    Ensures (constrain fuel d) m Q := by
  unfold SolveM.constrain
  rw [ensures_bind]
  refine (ensures_insert_shelved h hlive).mono fun r m₁ hs => ?_
  cases r with
  | error e =>
    obtain ⟨hsize, rfl, rfl⟩ := hs
    exact hfull hsize
  | ok c =>
    unfold SolveM.enableOrRemove
    simp only [ensures_bind, ensures_attempt]
    refine (hmade c m₁ hs).mono fun r m₂ hQ => ?_
    cases r with
    | ok _ => exact (ensures_pure _).2 (hQ.1 rfl)
    | error e =>
      -- what cannot be enabled is removed, and this takes back no pass
      simp only [ensures_bind, ensures_attempt]
      refine (forward_frame.removeConstraint fuel c m₂).mono fun cleanup m₃ hle => ?_
      cases cleanup with
      | ok _ => exact (ensures_throw _).2 (hQ.2 e rfl e m₃ hle.2)
      | error _ =>
        simp only [ensures_bind, ensures_note]
        exact (ensures_throw _).2 (hQ.2 e rfl e _ hle.2)

/-- A constraint without a sink is disabled, whatever comes of it, and erased. -/
theorem Ensures.removeConstraint {Q : Except SolveError Unit → Machine W T → Prop}
    (hnode : m.solver.constraintAt? c = some node) (hsink : node.sink = none)
    (h : Ensures (disable fuel c) m fun r m₁ => ∀ m₂ : Machine W T, m₁.solver.Erased m₂.solver c →
      Q r m₂) : Ensures (removeConstraint fuel c) m Q := by
  unfold SolveM.removeConstraint
  rw [ensures_bind]
  refine .getConstraint hnode ?_
  simp only [ensures_bind, ensures_attempt]
  refine (h.and (disable_obeys (stands_frame c).toLeaveFrame fuel m)).mono ?_
  rintro r m₁ ⟨hQ, hstands⟩
  obtain ⟨node₁, hnode₁, _, hsink₁⟩ := hstands.constraint_of hnode
  unfold SolveM.discard
  simp only [ensures_update, ensures_note, ensures_query]
  have hnone : (m₁.solver.constraintAt? c).bind Constraint.sink = none := by
    rw [hnode₁, Option.bind_some, hsink₁, hsink]
  refine hQ _ ?_
  simp only [hnone]
  exact Solver.erased_eraseConstraint c m₁.solver

section

variable {P : VarId → Cell T → Prop}

/-- A constraint that is not required, and with which an orderly graph is a forest, is made and enabled
if there is room for it. -/
theorem ensures_constrain_orderly {d : Definition W T} (h : m.solver.Orderly) (hg : m.solver.Guarded P)
    (hlive : ∀ v ∈ d.vars, (m.solver.variableAt? v).isSome) (hd : d.strength ≠ .required)
    (hforest : ∀ c (m₁ : Machine W T), m.solver.Shelved True m₁.solver c { definition := d } →
      m₁.solver.ForestWith c)
    (hkeeps : ∀ method ∈ d.methods, method.Keeps P) :
    Ensures (constrain fuel d) m fun r m' => m'.solver.passes < 2 ^ 64 →
      match r with
      | .ok c => m'.solver.Orderly ∧ m'.solver.Guarded P ∧ ∃ s₁,
        m.solver.Shelved True s₁ c { definition := d } ∧
          s₁.Toggled m'.solver fun k => s₁.Enabled k ∨ k = c
      | .error e => m.solver.constraints.size = Arena.maxSlots ∧
        e = .arena (.capacityExceeded Arena.maxSlots) ∧ m' = m := by
  refine .constrain h.toSound hlive (fun hfull _ => ⟨hfull, rfl, rfl⟩) fun c m₁ hs r m₂ henable => ?_
  have h₁ := h.shelved hs rfl
  have horderly := ensures_enable_orderly h₁ (hforest c m₁ hs) hs.stored (fun _ hreq => absurd hreq hd)
    r m₂ henable
  refine ⟨?_, fun e he e' m₃ hle hlt => ?_⟩
  · rintro rfl hlt
    obtain ⟨_, h₂, ht⟩ := horderly hlt
    have hg₁ : m₁.solver.Guarded P := ⟨hs.tame rfl hg.1,
      hg.2.of_cellAt fun v => (Solver.samePaint_of_eq (hs.variableAt v)).2.2⟩
    refine ⟨h₂, ?_, m₁.solver, hs, ht⟩
    refine ensures_enable_guarded h₁.toSound hg₁ (fun node hnode => ?_) _ m₂ henable
    obtain rfl := Option.some.inj (hs.stored.symm.trans hnode)
    exact hkeeps
  · obtain ⟨hok, _⟩ := horderly (Nat.lt_of_le_of_lt hle hlt)
    cases he.symm.trans hok

/-- A constraint of an orderly graph is removed. -/
theorem ensures_removeConstraint_orderly (h : m.solver.Orderly) (hg : m.solver.Guarded P)
    (hnode : m.solver.constraintAt? c = some node) (hsink : node.sink = none) :
    Ensures (removeConstraint fuel c) m fun r m' => m'.solver.passes < 2 ^ 64 → r = .ok () ∧
      m'.solver.Orderly ∧ m'.solver.Meets P ∧ ∃ s₁, m.solver.Stands s₁ ∧ s₁.Erased m'.solver c := by
  refine .removeConstraint hnode hsink fun r m₁ hdisable m₂ he hlt => ?_
  obtain ⟨hok, h₁, ht⟩ := ensures_disable_orderly h hnode r m₁ hdisable (he.passes ▸ hlt)
  have hg₁ := ensures_disable_guarded h.toWellFormed hg r m₁ hdisable
  refine ⟨hok, h₁.erased he fun hc => ((ht.enabled c).1 hc).2 rfl, ?_, m₁.solver, ht.stands, he⟩
  exact hg₁.2.of_cellAt fun v => (Solver.samePaint_of_eq (he.variableAt v)).2.2

end

/-! ## Returning on forests -/

/-- When a constraint with which the graph is a forest was enabled, the graph is a forest. -/
theorem ensures_enable_forest (hforest : m.solver.ForestWith c) :
    Ensures (enable fuel c) m fun _ m' => m'.solver.Forest := by
  refine ((enable_obeys (stands_frame c) fuel m).and
    (enable_switches (· = c) (· = c) fuel rfl rfl m)).mono ?_
  rintro r m' ⟨hstands, hswitches⟩
  exact hforest.of_stands hstands hswitches.enabled

/-- Removing a constraint of a forest is stopped on forests only. -/
theorem removeConstraint_stopsOnForest (h : m.solver.Sound cells) (hforest : m.solver.Forest) :
    StopsOnForest (removeConstraint fuel c) m := by
  unfold removeConstraint
  refine .after (.getConstraint c) ?_
  rw [ensures_getConstraint]
  cases m.solver.lookupConstraint c with
  | error e => trivial
  | ok node =>
    refine .bind (.attempt (disable_stopsOnForest h hforest)) ?_
    rw [ensures_attempt]
    refine fun r m' _ => .of_total ?_
    exact (Total.update _).bind fun _ => (Total.note _).bind fun _ => .query _

/-- Making a constraint with which the graph is a forest is stopped on forests only. -/
theorem constrain_stopsOnForest {d : Definition W T} (h : m.solver.Sound cells)
    (hlive : ∀ v ∈ d.vars, (m.solver.variableAt? v).isSome)
    (hforest : ∀ c (m₁ : Machine W T), m.solver.Shelved cells m₁.solver c { definition := d } →
      m₁.solver.ForestWith c) : StopsOnForest (constrain fuel d) m := by
  unfold constrain
  refine .after (total_insert d) ((ensures_insert_shelved h hlive).mono fun r m₁ hs => ?_)
  cases r with
  | error e => trivial
  | ok c =>
    have hforest₁ := hforest c m₁ hs
    have h₁ := hs.sound
    refine .bind (.attempt (enable_stopsOnForest h₁ hforest₁)) ?_
    rw [ensures_attempt]
    refine ((enable_keeps fuel c m₁ h₁).and (ensures_enable_forest hforest₁)).mono ?_
    rintro result m₂ ⟨⟨h₂, _⟩, hforest₂⟩
    cases result with
    | ok _ => exact .of_total (.pure _)
    | error e =>
      refine .bind (.attempt (removeConstraint_stopsOnForest h₂ hforest₂)) ?_
      rw [ensures_attempt]
      refine fun cleanup m₃ _ => .of_total ?_
      cases cleanup with
      | ok _ => exact .throw _
      | error _ => exact (Total.note _).bind fun _ => .throw _

/-- Enabling a constraint for a moment is stopped on forests only, if the graph is a forest with
it. -/
theorem pulse_stopsOnForest {v : VarId} (h : m.solver.Sound cells) (hforest : m.solver.ForestWith c) :
    StopsOnForest (pulse fuel v c) m := by
  unfold pulse
  refine .after (.count _) ((ensures_count _).mpr ?_)
  refine .after (.note _) ((ensures_note _).mpr ?_)
  -- the counter and the journal do not matter
  generalize hm₀ : Machine.mk _ _ _ = m₀
  have halike : m.solver.Alike m₀.solver := by
    rw [← hm₀]
    exact ⟨fun _ => rfl, fun _ => rfl, rfl, rfl⟩
  have h₀ := h.alike halike
  have hforest₀ : m₀.solver.ForestWith c := by
    rw [← hm₀]
    exact hforest
  refine .bind (.attempt (enable_stopsOnForest h₀ hforest₀)) ?_
  rw [ensures_attempt]
  refine ((enable_keeps fuel c _ h₀).and (ensures_enable_forest hforest₀)).mono ?_
  rintro result m₁ ⟨⟨h₁, _⟩, hforest₁⟩
  refine .bind (.attempt (disable_stopsOnForest h₁ hforest₁)) ?_
  rw [ensures_attempt]
  refine fun cleanup m₂ _ => .of_total ?_
  exact (Total.update _).bind fun _ => (Total.query _).bind fun _ => .query _

/-- A write is stopped on forests only, if the graph is a forest with the edit it is written
through. -/
theorem write_stopsOnForest {v : VarId} {value : T} {x : Variable T} (h : m.solver.Sound cells)
    (hx : m.solver.variableAt? v = some x)
    (hforest : ∀ c (m₁ : Machine W T), m.solver.Shelved cells m₁.solver c (writer m.solver v value) →
      m₁.solver.ForestWith c) : StopsOnForest (write fuel v value) m := by
  unfold write
  refine .after (.getVariable v) (.getVariable hx ?_)
  refine .after (.ask _) ((ensures_ask _).2 ?_)
  simp only
  split
  · exact .of_total ((Total.changeVariable v _).bind fun _ => (Total.count _).bind fun _ => .note _)
  · rw [writeThrough_eq]
    refine .after (.ask _) ((ensures_ask _).2 ?_)
    refine .after (total_storeConstraint _) ?_
    refine (ensures_store_writer h (by rw [hx]; rfl)).mono fun r m₁ hs => ?_
    cases r with
    | error e => trivial
    | ok c => exact pulse_stopsOnForest hs.sound (hforest c m₁ hs)

end SolveM

end DeltaBlue
