import DeltaBlue.Proofs.Rows
import DeltaBlue.Proofs.Traces

/-!
# What chains keep

A condition on values that holds on one side of a link holds on the other after the link has copied. So
a condition that every enabled link passes on (`Chain.Passes`), and that holds of the values of a chain,
holds of them whatever the solver does (`Chain.Guard`).

A solver holds a chain (`Chain.Hosted`) if besides it there are only constraints that keep variables
and are weaker than the links. All enabled links are then in force, so neighbours with an enabled link
between them have equal values. A value is written through a required constraint on the variable. While
this is enabled (`Chain.Pressed`), it is in force together with all enabled links, if the chain is
two-way or the variable is the first one; so every variable to which enabled links lead has the value.
That is a condition that links pass on, and it still holds when the constraint is gone. In a one-way
chain, the value of the first variable is kept while another one is written, since no link leads to it.
-/

namespace DeltaBlue

namespace Chain

open Relation (ReflTransGen)
open Solver (Orderly Stands Shelved Erased Toggled)
open SolveM (forward_frame)

variable {W T : Type} {chain : Chain} {twoWay : Bool} {pins stays : Finset ConstraintId}
  {s s' : Solver W T} {c k : ConstraintId} {node : Constraint W T} {i : Nat} {u v w : VarId}
  {X X' : VarId → T → Prop} {value : T} {on : ConstraintId → Prop}

/-! ## Values along a chain -/

/-- The variables are neighbours, and the link between them is one of those given. -/
def Adjacent (chain : Chain) (on : ConstraintId → Prop) (v w : VarId) : Prop :=
  ∃ i k, chain.links[i]? = some k ∧ on k ∧
    (chain.vars[i]? = some v ∧ chain.vars[i + 1]? = some w ∨
      chain.vars[i]? = some w ∧ chain.vars[i + 1]? = some v)

/-- One variable leads to the other over links that are given. -/
abbrev Connected (chain : Chain) (on : ConstraintId → Prop) : VarId → VarId → Prop :=
  ReflTransGen (chain.Adjacent on)

/-- Neighbours are neighbours of each other. -/
theorem Adjacent.symm (h : chain.Adjacent on v w) : chain.Adjacent on w v := by
  obtain ⟨i, k, hk, hon, hends⟩ := h
  exact ⟨i, k, hk, hon, hends.symm⟩

/-- With more links given, more variables are led to. -/
theorem Connected.mono {on' : ConstraintId → Prop} (h : chain.Connected on v w)
    (hon : ∀ k ∈ chain.links, on k → on' k) : chain.Connected on' v w :=
  ReflTransGen.mono (p := chain.Adjacent on') (fun _ _ ⟨i, k, hk, hkon, hends⟩ =>
    ⟨i, k, hk, hon k (List.mem_of_getElem? hk) hkon, hends⟩) v w h

/-- Links lead to variables of the chain only. -/
theorem Connected.mem (h : chain.Connected on v w) (hv : v ∈ chain.vars) : w ∈ chain.vars := by
  rcases h.cases_tail with rfl | ⟨u, _, i, k, _, _, ⟨_, hw⟩ | ⟨hw, _⟩⟩
  · exact hv
  · exact List.mem_of_getElem? hw
  · exact List.mem_of_getElem? hw

/-- A variable of the chain has a value, and one of which the condition holds. -/
def Guard (chain : Chain) (X : VarId → T → Prop) (v : VarId) (cell : Cell T) : Prop :=
  v ∈ chain.vars → ∃ x, cell = .assigned x ∧ X v x

/-- The condition passes from the variables that links copy to those that they determine. -/
def Passes (chain : Chain) (twoWay : Bool) (on : ConstraintId → Prop) (X : VarId → T → Prop) : Prop :=
  ∀ ⦃i k v w⦄, chain.links[i]? = some k → on k → chain.vars[i]? = some v →
    chain.vars[i + 1]? = some w → ∀ x, (X v x → X w x) ∧ (twoWay = true → X w x → X v x)

/-- A copy keeps a condition that passes from its input to its output. -/
theorem copy_keeps_guard (hv : v ∈ chain.vars) (hX : ∀ x, X v x → X w x) :
    (Method.copy w v : Method W T).Keeps (chain.Guard X) := by
  refine Method.copy_keeps (fun cell hcell => ?_) fun x hx _ => ⟨x, rfl, ?_⟩
  · obtain ⟨x, hx, _⟩ := hcell hv
    exact ⟨x, hx⟩
  · obtain ⟨y, hy, hXy⟩ := hx hv
    exact hX x (Cell.assigned.inj hy ▸ hXy)

/-- A condition that a link passes on, if it is enabled, is kept by its methods, and by those of a pin
that keeps a variable, or holds it at a constant of which the condition holds. -/
theorem Row.keeps (h : chain.Row twoWay pins s) (hnode : s.constraintAt? k = some node)
    (hX : chain.Passes twoWay (· = k) X)
    (hpins : k ∈ pins → ∀ a label v value, node.definition = .edit a label v value → X v value) :
    ∀ method ∈ node.definition.methods, method.Keeps (chain.Guard X) := by
  intro method hmethod
  obtain ⟨i, v, w, hi, hv, hw, hlinks⟩ | ⟨hk, _, _, v, hv, ⟨a, hd⟩ | ⟨a, label, value, hd⟩⟩ :=
    h.cases hnode
  · -- a link copies one way, or both ways in a two-way chain
    have hX := hX hi rfl hv hw
    rcases hlinks.method_cases hmethod with rfl | ⟨htwo, rfl⟩
    · exact copy_keeps_guard (List.mem_of_getElem? hv) fun x => (hX x).1
    · exact copy_keeps_guard (List.mem_of_getElem? hw) fun x => (hX x).2 htwo
  · rw [hd] at hmethod
    obtain rfl := List.mem_singleton.1 hmethod
    exact Method.stay_keeps
  · have hX := hpins hk a label v value hd
    rw [hd] at hmethod
    obtain rfl := List.mem_singleton.1 hmethod
    exact Method.edit_keeps fun _ => ⟨value, rfl, hX⟩

/-- A weaker condition holds as well. -/
theorem Guard.mono {cell : Cell T} (h : chain.Guard X v cell) (hX : ∀ x, X v x → X' v x) :
    chain.Guard X' v cell := by
  intro hv
  obtain ⟨x, hx, hXx⟩ := h hv
  exact ⟨x, hx, hX x hXx⟩

/-- Neighbours with an enabled link between them have the same value, if this link is in force. -/
theorem Row.cell_eq_of_adjacent (h : chain.Row twoWay pins s) (horderly : s.Orderly)
    (hmeets : s.Meets (chain.Guard X))
    (henf : ∀ k ∈ chain.links, s.Enabled k → s.isEnforcing k = true)
    (hvw : chain.Adjacent s.Enabled v w) : s.cellAt v = s.cellAt w := by
  have hassigned : ∀ v ∈ chain.vars, ∃ x, s.cellAt v = .assigned x := by
    intro v hv
    obtain ⟨x, hx, _⟩ := hmeets v hv
    exact ⟨x, hx⟩
  obtain ⟨i, k, hi, hen, ⟨hv, hw⟩ | ⟨hw, hv⟩⟩ := hvw
  · exact h.cell_eq horderly hassigned hi hv hw (henf k (List.mem_of_getElem? hi) hen)
  · exact (h.cell_eq horderly hassigned hi hw hv (henf k (List.mem_of_getElem? hi) hen)).symm

/-! ## Chains at rest -/

/-- The solver holds the chain. Besides the links it has only constraints that keep variables of the
chain and are weaker than the links; every variable of the chain has a value; and values are written as
required. -/
structure Hosted (chain : Chain) (twoWay : Bool) (stays : Finset ConstraintId) (s : Solver W T) :
    Prop where
  /-- The graph is orderly. -/
  orderly : s.Orderly
  /-- It consists of the chain and the other constraints. -/
  row : chain.Row twoWay stays s
  /-- These keep a variable, and are weaker than the links. -/
  weak : ∀ c ∈ stays, ∀ node, s.constraintAt? c = some node →
    ∃ a v, node.definition = .stay a v ∧ a < .strong
  /-- Values are written as required. -/
  writeStrength : s.config.writeStrength = .required
  /-- The variables of the chain have values. -/
  assigned : s.Meets (chain.Guard fun _ _ => True)

/-- A constraint of the solver keeps a condition that it passes on if it is a link. -/
theorem Hosted.keeps (h : chain.Hosted twoWay stays s) (hnode : s.constraintAt? k = some node)
    (hX : chain.Passes twoWay (· = k) X) :
    ∀ method ∈ node.definition.methods, method.Keeps (chain.Guard X) := by
  refine h.row.keeps hnode hX fun hk a label v value hd => ?_
  obtain ⟨b, u, hstay, _⟩ := h.weak k hk node hnode
  exact absurd (hstay.symm.trans hd) Definition.stay_ne_edit

/-- The enabled constraints keep a condition that the enabled links pass on. -/
theorem Hosted.tame (h : chain.Hosted twoWay stays s) (hX : chain.Passes twoWay s.Enabled X) :
    s.Tame (chain.Guard X) := fun _ node hnode hen =>
  h.keeps hnode fun _ _ _ _ hi hk => hX hi (hk ▸ ⟨node, hnode, hen⟩)

/-- A condition on values alone is passed on. -/
theorem passes_const {P : T → Prop} : chain.Passes twoWay on fun _ x => P x :=
  fun _ _ _ _ _ _ _ _ _ => ⟨id, fun _ => id⟩

/-- All methods of the graph leave the variables of the chain with values. -/
theorem Hosted.guarded (h : chain.Hosted twoWay stays s) :
    s.Guarded (chain.Guard fun _ _ => True) := ⟨h.tame passes_const, h.assigned⟩

/-- No constraint is stronger than the links. -/
theorem Hosted.strength_le (h : chain.Hosted twoWay stays s) (hnode : s.constraintAt? c = some node) :
    node.definition.strength ≤ .strong := by
  obtain ⟨_, _, _, _, _, _, hlinks⟩ | ⟨hc, _⟩ := h.row.cases hnode
  · exact Nat.le_of_eq (congrArg Strength.rank hlinks.strength)
  · obtain ⟨a, v, hd, ha⟩ := h.weak c hc node hnode
    rw [hd]
    exact Nat.le_of_lt ha

/-- No variable is held as required. -/
theorem Hosted.walkAt_lt (h : chain.Hosted twoWay stays s) (v : VarId) : s.walkAt v < .required := by
  by_contra hheld
  obtain ⟨c, _, ⟨node, hnode, _, hle⟩, _⟩ := h.orderly.atRest.determiner_of_held h.orderly.toWellFormed
    (a := .required) (by decide) (Nat.le_of_not_lt hheld)
  exact absurd (Nat.le_trans hle (h.strength_le hnode)) (by decide)

/-- What moves methods and values only, and leaves an orderly graph with values, still holds the
chain. -/
theorem Hosted.of_stands (h : chain.Hosted twoWay stays s) (hs : s.Stands s') (horderly : s'.Orderly)
    (hconfig : s'.config = s.config) (hmeets : s'.Meets (chain.Guard X)) :
    chain.Hosted twoWay stays s' where
  orderly := horderly
  row := h.row.stands hs
  weak c hc node' hnode' := by
    obtain ⟨node, hnode, hd, _⟩ := hs.symm.constraint_of hnode'
    rw [← hd]
    exact h.weak c hc node hnode
  writeStrength := hconfig ▸ h.writeStrength
  assigned v := (hmeets v).mono fun _ _ => trivial

/-- No strong constraint but the links is there, so all enabled links are in force. -/
theorem Hosted.isEnforcing (h : chain.Hosted twoWay stays s) (hk : k ∈ chain.links)
    (hen : s.Enabled k) : s.isEnforcing k = true := by
  refine h.row.link_isEnforcing (fun hnode hen hle => Row.isEnforcing (c := k) (.inl rfl)
    (fun j hj node hnode _ hle => ?_) h.row h.orderly hnode hen hle) hk hen
  obtain ⟨a, v, hd, ha⟩ := h.weak j hj node hnode
  rw [hd] at hle
  exact absurd ha (Nat.not_lt_of_le hle)

/-- Neighbours with an enabled link between them have the same value. -/
theorem Hosted.cell_eq (h : chain.Hosted twoWay stays s) (hvw : chain.Adjacent s.Enabled v w) :
    s.cellAt v = s.cellAt w :=
  h.row.cell_eq_of_adjacent h.orderly h.assigned (fun _ => h.isEnforcing) hvw

/-! ## The state in which a value is written -/

/-- The chain is held by a solver in which a strong constraint holds a variable of the chain at a value,
and no other constraint beside the links is strong. -/
structure Pressed (chain : Chain) (twoWay : Bool) (stays : Finset ConstraintId) (c : ConstraintId)
    (v : VarId) (value : T) (s : Solver W T) : Prop where
  /-- The graph is orderly. -/
  orderly : s.Orderly
  /-- It consists of the chain and the other constraints. -/
  row : chain.Row twoWay (insert c stays) s
  /-- The constraint that holds the variable. -/
  writer : ∃ node a label, s.constraintAt? c = some node ∧ node.enabled = true ∧
    node.definition = .edit a label v value ∧ .strong ≤ a
  /-- The other constraints are weaker than the links. -/
  weak : ∀ k ∈ stays, ∀ node, s.constraintAt? k = some node → node.definition.strength < .strong
  /-- The variables of the chain have values. -/
  assigned : s.Meets (chain.Guard fun _ _ => True)

/-- If the variable is the first one or the chain is two-way, all variables that enabled links connect
to it have the value. -/
theorem Pressed.cellAt_eq {p : Nat} (h : chain.Pressed twoWay stays c v value s)
    (hp : p = 0 ∨ twoWay = true) (hv : chain.vars[p]? = some v)
    (hu : chain.Connected s.Enabled v u) : s.cellAt u = .assigned value := by
  obtain ⟨node, a, label, hnode, hen, hd, hle⟩ := h.writer
  have henf : ∀ {k n}, s.constraintAt? k = some n → n.enabled = true →
      .strong ≤ n.definition.strength → n.isEnforcing = true := by
    refine fun {k n} => Row.isEnforcing (c := c) hp (fun j hj n hn _ hle => ?_) h.row h.orderly
    rcases Finset.mem_insert.1 hj with rfl | hj
    · obtain rfl := Option.some.inj (hnode.symm.trans hn)
      exact ⟨rfl, v, hv, .inr ⟨a, label, value, hd⟩⟩
    · exact absurd (h.weak j hj n hn) (Nat.not_lt_of_le hle)
  -- by induction on the way along the links
  induction hu with
  | refl => exact h.row.cell_of_edit h.orderly hnode hd (henf hnode hen (hd ▸ hle))
  | tail _ hstep ih =>
    exact (h.row.cell_eq_of_adjacent h.orderly h.assigned (fun _ => h.row.link_isEnforcing henf)
      hstep).symm.trans ih

/-! ## Writing -/

section Write

open SolveM (Ensures write pulse writer disable_obeys ensures_enable_orderly
  ensures_disable_orderly ensures_enable_guarded ensures_disable_guarded)

variable {m m₁ : Machine W T} {fuel : Nat}

/-- If no link of a variable is enabled, its value is only stored. -/
theorem Hosted.ensures_write_direct {x : Variable T} (h : chain.Hosted twoWay stays m.solver)
    (hx : m.solver.variableAt? v = some x) (hmode : SolveM.writesDirectly m.solver x = true) :
    Ensures (write fuel v value) m fun r m' => m'.solver.passes < 2 ^ 64 →
      r = .ok () ∧ m'.solver.Orderly ∧ (∀ k, m'.solver.Enabled k ↔ m.solver.Enabled k) ∧
      (∀ w, ¬ chain.Adjacent m.solver.Enabled v w) ∧
      ∀ u, m'.solver.cellAt u = if u = v then .assigned value else m.solver.cellAt u := by
  have horderly := h.orderly
  have honly := (horderly.writesDirectly_iff hx).1 hmode
  -- no enabled constraint mentions the variable
  have hfree : ∀ k node, m.solver.constraintAt? k = some node → node.enabled = true →
      v ∉ node.definition.vars := by
    intro k node hnode hen hmem
    cases (h.row.nonvolatile hnode).symm.trans (honly k node hnode hen hmem)
  refine SolveM.ensures_write_direct hx hmode fun m' hr hcells hlt => ⟨rfl, ?_, ?_, ?_, hcells⟩
  · refine ⟨horderly.toSound.rewrites hr fun _ _ k node method hnode hmethod _ u hu => ?_, hlt,
      horderly.tidy.aside hr.aside, fun k node hnode => ?_⟩
    · rw [hcells, if_neg]
      rintro rfl
      obtain ⟨i, hi, _⟩ := Option.bind_eq_some_iff.1 hmethod
      exact hfree k node hnode (horderly.enforcing hnode hi).1 hu
    · exact horderly.above k node (hr.constraintAt k ▸ hnode)
  · intro k
    unfold Solver.Enabled
    rw [hr.constraintAt]
  · rintro w ⟨i, k, hi, ⟨node, hnode, hen⟩, hends⟩
    obtain ⟨a, b, n, ha, hb, hn, hlinks⟩ := h.row.link hi
    obtain rfl := Option.some.inj (hnode.symm.trans hn)
    refine hfree k node hnode hen (hlinks.mem_vars.2 ?_)
    rcases hends with ⟨hv, _⟩ | ⟨_, hv⟩
    · exact .inl (Option.some.inj (hv.symm.trans ha))
    · exact .inr (Option.some.inj (hv.symm.trans hb))

/-- The constraint that a value is written through is not blocked, since no variable is held as
required. -/
theorem Hosted.writer_price_lt (h : chain.Hosted twoWay stays m.solver)
    (hs : m.solver.Shelved True s c (writer m.solver v value)) :
    (writer m.solver v value).definition.price s.walkAt < .required := by
  by_contra hheld
  have hle := Definition.le_price.1 (Nat.le_of_not_lt hheld) (.edit v value) List.mem_cons_self
  rw [hs.walkAt] at hle
  exact absurd (h.walkAt_lt v) (Nat.not_lt_of_le hle)

/-- An edit keeps a condition that holds of its value. -/
theorem writer_keeps (hs : m.solver.Shelved True s c (writer m.solver v value)) (hvalue : X v value) :
    ∀ node, s.constraintAt? c = some node → ∀ method ∈ node.definition.methods,
      method.Keeps (chain.Guard X) := by
  intro node hnode method hmethod
  obtain rfl := Option.some.inj (hs.stored.symm.trans hnode)
  obtain rfl := List.mem_singleton.1 hmethod
  exact Method.edit_keeps fun _ => ⟨value, rfl, hvalue⟩

/-- When the constraint that the value is written through has been enabled, it holds the variable. -/
theorem Hosted.pressed_of_toggled (h : chain.Hosted twoWay stays m.solver) (hv : v ∈ chain.vars)
    (hs : m.solver.Shelved True s c (writer m.solver v value)) (horderly : s'.Orderly)
    (ht : s.Toggled s' fun k => s.Enabled k ∨ k = c) (hmeets : s'.Meets (chain.Guard X)) :
    chain.Pressed twoWay stays c v value s' where
  orderly := horderly
  row := (h.row.pinned hs hv rfl (.inr ⟨_, _, _, rfl⟩)).stands ht.stands
  writer := by
    obtain ⟨node, hnode, hd, _⟩ := ht.stands.constraint_of hs.stored
    obtain ⟨n, hn, hen⟩ := (ht.enabled c).2 (.inr rfl)
    obtain rfl := Option.some.inj (hnode.symm.trans hn)
    exact ⟨node, _, _, hn, hen, hd, by rw [h.writeStrength]; decide⟩
  weak k hk n hn := by
    obtain ⟨n₀, hn₀, hd, _⟩ := ht.stands.symm.constraint_of hn
    rw [hs.constraintAt_ne (ne_of_mem_of_not_mem hk (h.row.not_mem_of_shelved hs).2)] at hn₀
    obtain ⟨a, w, hstay, ha⟩ := h.weak k hk n₀ hn₀
    rw [← hd, hstay]
    exact ha
  assigned u := (hmeets u).mono fun _ _ => trivial

variable (h : chain.Hosted twoWay stays m.solver) (hv : v ∈ chain.vars)
  (hX : m.solver.Meets (chain.Guard X)) (hpass : chain.Passes twoWay m.solver.Enabled X)
  (hvalue : X v value) (hpass' : chain.Passes twoWay m.solver.Enabled X') (hvalue' : X' v value)
  (hpressed : ∀ c (s₁ : Solver W T), chain.Pressed twoWay stays c v value s₁ →
    (∀ k ∈ chain.links, s₁.Enabled k ↔ m.solver.Enabled k) → s₁.Meets (chain.Guard X) →
    s₁.Meets (chain.Guard X'))
include h hv hX hpass hvalue hpass' hvalue' hpressed

/-- The constraint that the value is written through is enabled and disabled. -/
theorem Hosted.ensures_pulse
    (hs : m.solver.Shelved True m₁.solver c (writer m.solver v value)) :
    Ensures (pulse fuel v c) m₁ fun r m' => m'.solver.passes < 2 ^ 64 →
      r = .ok () ∧ m'.solver.Orderly ∧ (∀ k, m'.solver.Enabled k ↔ m.solver.Enabled k) ∧
        m'.solver.Meets (chain.Guard X') := by
  refine .pulse fun m₀ halike hfaults _ => ?_
  have hs₀ := hs.alike halike hfaults
  have h₀ := h.orderly.shelved hs₀ rfl
  have hrow₀ := h.row.pinned hs₀ hv rfl (.inr ⟨_, _, _, rfl⟩)
  intro result m₂ henable cleanup m₃ hdisable m₄ he _ hlt
  have hlt₃ : m₃.solver.passes < 2 ^ 64 := he.passes ▸ hlt
  have hlt₂ := Nat.lt_of_le_of_lt
    (disable_obeys (forward_frame.enterFrame c).toLeaveFrame fuel m₂ _ m₃ hdisable).2 hlt₃
  -- while it is enabled, `X` holds of the values, so `X'` does
  obtain ⟨rfl, h₂, ht₂⟩ := ensures_enable_orderly h₀ (hrow₀.forestWith c) hs₀.stored
    (fun _ _ => h.writer_price_lt hs₀) _ m₂ henable hlt₂
  have hmeets₀ : m₀.solver.Meets (chain.Guard X) :=
    hX.of_cellAt fun u => (Solver.samePaint_of_eq (hs₀.variableAt u)).2.2
  have hg₂ := ensures_enable_guarded h₀.toSound ⟨hs₀.tame rfl (h.tame hpass), hmeets₀⟩
    (writer_keeps hs₀ hvalue) _ m₂ henable
  have hen₂ : ∀ k, m₂.solver.Enabled k ↔ m.solver.Enabled k ∨ k = c := fun k =>
    (ht₂.enabled k).trans (or_congr_left (hs₀.enabled_iff rfl))
  have hlink := (h.row.not_mem_of_shelved hs₀).1
  have hmeets₂ := hpressed c m₂.solver (h.pressed_of_toggled hv hs₀ h₂ ht₂ hg₂.2)
    (fun k hk => (hen₂ k).trans (or_iff_left (ne_of_mem_of_not_mem hk hlink))) hg₂.2
  -- and `X'` still does when it is disabled
  obtain ⟨node₂, hnode₂, _⟩ := ht₂.stands.constraint_of hs₀.stored
  obtain ⟨rfl, h₃, ht₃⟩ := ensures_disable_orderly h₂ hnode₂ _ m₃ hdisable hlt₃
  have htame₂ := (hs₀.tame rfl (h.tame hpass')).of_stands ht₂.stands
    (fun k hk => (ht₂.enabled k).1 hk) (writer_keeps hs₀ hvalue')
  have hg₃ := ensures_disable_guarded h₂.toWellFormed ⟨htame₂, hmeets₂⟩ _ m₃ hdisable
  refine ⟨rfl, h₃.erased he fun hc => ((ht₃.enabled c).1 hc).2 rfl, fun k => ?_,
    hg₃.2.of_cellAt fun u => (Solver.samePaint_of_eq (he.variableAt u)).2.2⟩
  have hc : ¬ m.solver.Enabled c := Solver.not_enabled_of_none hs.fresh
  rw [he.enabled_iff, ht₃.enabled, hen₂]
  by_cases hk : k = c
  · subst hk
    tauto
  · tauto

/-- A value is written to a variable of the chain. The condition `X` holds of the values before, and of
the value for the variable, so it holds of the values while the value is held; from then on `X'` does,
which follows from this. -/
theorem Hosted.ensures_write (hdirect : (∀ w, ¬ chain.Adjacent m.solver.Enabled v w) →
      ∀ u, u ≠ v → ∀ x, X u x → X' u x) :
    Ensures (write fuel v value) m fun r m' => m'.solver.passes < 2 ^ 64 →
      (r = .ok () ∧ chain.Hosted twoWay stays m'.solver ∧
        (∀ k, m'.solver.Enabled k ↔ m.solver.Enabled k) ∧ m'.solver.Meets (chain.Guard X')) ∨
      (m.solver.constraints.size = Arena.maxSlots ∧
        r = .error (.arena (.capacityExceeded Arena.maxSlots)) ∧ m' = m) := by
  have hwritten : Ensures (write fuel v value) m fun r m' => m'.solver.passes < 2 ^ 64 →
      (r = .ok () ∧ m'.solver.Orderly ∧ (∀ k, m'.solver.Enabled k ↔ m.solver.Enabled k) ∧
        m'.solver.Meets (chain.Guard X')) ∨
      (m.solver.constraints.size = Arena.maxSlots ∧
        r = .error (.arena (.capacityExceeded Arena.maxSlots)) ∧ m' = m) := by
    obtain ⟨x, hx⟩ := Option.isSome_iff_exists.1 (h.row.live v hv)
    -- the value is stored directly if there is no link, and goes through a constraint otherwise
    cases hmode : SolveM.writesDirectly m.solver x with
    | true =>
      refine (h.ensures_write_direct hx hmode).mono fun r m' hdone hlt => .inl ?_
      obtain ⟨hr, horderly, hen, halone, hcells⟩ := hdone hlt
      refine ⟨hr, horderly, hen, fun u hu => ?_⟩
      rw [hcells]
      by_cases huv : u = v
      · rw [if_pos huv]
        exact ⟨value, rfl, huv ▸ hvalue'⟩
      · rw [if_neg huv]
        exact (hX u).mono (fun y hy => hdirect halone u huv y hy) hu
    | false =>
      refine SolveM.ensures_write_through hx h.orderly.toSound hmode
        (fun hfull _ => .inr ⟨hfull, rfl, rfl⟩) fun c m₁ hs => ?_
      exact (h.ensures_pulse hv hX hpass hvalue hpass' hvalue' hpressed hs).mono
        fun _ _ hdone hlt => .inl (hdone hlt)
  refine ((hwritten.and (SolveM.write_stands fuel v value m)).and
    (forward_frame.write fuel v value m)).mono ?_
  rintro r m' ⟨⟨hdone, hstands⟩, hconfig, _⟩ hlt
  refine (hdone hlt).imp_left fun ⟨hr, horderly, hen, hmeets⟩ => ⟨hr, ?_, hen, hmeets⟩
  exact h.of_stands hstands horderly hconfig hmeets

end Write

section Calls

open SolveM (Ensures StopsOnForest)

variable {m : Machine W T} {fuel : Nat} {a : Strength}

/-- That a variable has the value if links lead to it is a condition that links pass on. -/
theorem passes_connected : chain.Passes twoWay on fun u x => chain.Connected on v u → x = value := by
  intro i k a b hi hk ha hb x
  have hab : chain.Adjacent on a b := ⟨i, k, hi, hk, .inl ⟨ha, hb⟩⟩
  exact ⟨fun hX hvb => hX (hvb.tail hab.symm), fun _ hX hva => hX (hva.tail hab)⟩

/-- After a value was written to the first variable, or to any variable of a two-way chain, all
variables that enabled links connect to it have the value. -/
theorem Hosted.ensures_write_connected {p : Nat} (h : chain.Hosted twoWay stays m.solver)
    (hp : p = 0 ∨ twoWay = true) (hv : chain.vars[p]? = some v) :
    Ensures (SolveM.write fuel v value) m fun r m' => m'.solver.passes < 2 ^ 64 →
      (r = .ok () ∧ chain.Hosted twoWay stays m'.solver ∧
        (∀ k, m'.solver.Enabled k ↔ m.solver.Enabled k) ∧
        ∀ u ∈ chain.vars, chain.Connected m.solver.Enabled v u → m'.solver.cellAt u = .assigned value) ∨
      (m.solver.constraints.size = Arena.maxSlots ∧
        r = .error (.arena (.capacityExceeded Arena.maxSlots)) ∧ m' = m) := by
  refine (h.ensures_write (List.mem_of_getElem? hv) h.assigned passes_const trivial
    (passes_connected (v := v)) (fun _ => rfl) ?_ ?_).mono ?_
  · intro c s₁ hpressed hen hmeets u hu
    obtain ⟨x, hx, _⟩ := hmeets u hu
    refine ⟨x, hx, fun hvu => Cell.assigned.inj (hx.symm.trans ?_)⟩
    exact hpressed.cellAt_eq hp hv (hvu.mono fun k hk => (hen k hk).2)
  · intro halone u hne x _ hvu
    rcases hvu.cases_head with rfl | ⟨w, hvw, _⟩
    · exact absurd rfl hne
    · exact absurd hvw (halone w)
  · intro r m' hdone hlt
    refine (hdone hlt).imp_left fun ⟨hr, hhosted, hen, hmeets⟩ => ⟨hr, hhosted, hen, ?_⟩
    intro u hu hvu
    obtain ⟨x, hx, hX⟩ := hmeets u hu
    rw [hx, hX hvu]

/-- A value that is written to a one-way chain stays with its first variable, if it was written there;
else the first variable keeps its value. -/
theorem Hosted.ensures_write_oneWay {x : T} (h : chain.Hosted false stays m.solver)
    (hv : v ∈ chain.vars) (hhead : chain.first? = some u) (hx : m.solver.cellAt u = .assigned x) :
    Ensures (SolveM.write fuel v value) m fun r m' => m'.solver.passes < 2 ^ 64 →
      (r = .ok () ∧ chain.Hosted false stays m'.solver ∧
        (∀ k, m'.solver.Enabled k ↔ m.solver.Enabled k) ∧
        m'.solver.cellAt u = .assigned (if v = u then value else x)) ∨
      (m.solver.constraints.size = Arena.maxSlots ∧
        r = .error (.arena (.capacityExceeded Arena.maxSlots)) ∧ m' = m) := by
  have hu : chain.vars[0]? = some u := List.head?_eq_getElem? ▸ hhead
  by_cases hvu : v = u
  · subst hvu
    refine (h.ensures_write_connected (.inl rfl) hu).mono fun r m' hdone hlt => ?_
    refine (hdone hlt).imp_left fun ⟨hr, hhosted, hen, hcells⟩ => ⟨hr, hhosted, hen, ?_⟩
    rw [if_pos rfl]
    exact hcells v hv .refl
  · -- no link leads to the first variable
    have hpass : chain.Passes false m.solver.Enabled fun a y => a = u → y = x := by
      intro i k a b hi _ _ hb y
      refine ⟨?_, nofun⟩
      rintro - rfl
      have hfirst := idxOf_eq h.row.vars_nodup hu
      have hlater := idxOf_eq h.row.vars_nodup hb
      omega
    have hmeets : m.solver.Meets (chain.Guard fun a y => a = u → y = x) := by
      intro a ha
      obtain ⟨y, hy, _⟩ := h.assigned a ha
      refine ⟨y, hy, ?_⟩
      rintro rfl
      exact Cell.assigned.inj (hy.symm.trans hx)
    refine (h.ensures_write hv hmeets hpass (absurd · hvu) hpass (absurd · hvu)
      (fun _ _ _ _ => id) fun _ _ _ _ => id).mono fun r m' hdone hlt => ?_
    refine (hdone hlt).imp_left fun ⟨hr, hhosted, hen, hmeets'⟩ => ⟨hr, hhosted, hen, ?_⟩
    obtain ⟨y, hy, hyx⟩ := hmeets' u (List.mem_of_getElem? hu)
    rw [if_neg hvu, hy, hyx rfl]

/-- A weaker constraint that keeps a variable is made, if there is room. -/
theorem Hosted.ensures_stay (h : chain.Hosted twoWay stays m.solver) (hv : v ∈ chain.vars)
    (ha : a < .strong) :
    Ensures (SolveM.stay fuel v a) m fun r m' => m'.solver.passes < 2 ^ 64 →
      match r with
      | .ok c => chain.Hosted twoWay (insert c stays) m'.solver
      | .error e => m.solver.constraints.size = Arena.maxSlots ∧
        e = .arena (.capacityExceeded Arena.maxSlots) ∧ m' = m := by
  have hpins : (Definition.stay a v : Definition W T).Pins v := .inl ⟨a, rfl⟩
  have hrequired : a ≠ .required := by
    rintro rfl
    exact absurd ha (by decide)
  refine ((SolveM.ensures_constrain_orderly h.orderly h.guarded
    (fun u hu => hpins.mem_vars.1 hu ▸ h.row.live v hv) hrequired
    (fun c m₁ hs => (h.row.pinned hs hv rfl hpins).forestWith c)
    (fun method hmethod => List.mem_singleton.1 hmethod ▸ Method.stay_keeps)).and
    (forward_frame.constrain fuel _ m)).mono ?_
  rintro r m' ⟨hmade, hconfig, _⟩ hlt
  cases r with
  | error e => exact hmade hlt
  | ok c =>
    obtain ⟨horderly', hguarded, s₁, hs, ht⟩ := hmade hlt
    refine ⟨horderly', (h.row.pinned hs hv rfl hpins).stands ht.stands, fun k hk node hnode => ?_,
      hconfig ▸ h.writeStrength, hguarded.2⟩
    obtain ⟨n, hn, hd, _⟩ := ht.stands.symm.constraint_of hnode
    rw [← hd]
    obtain ⟨_, rfl⟩ | ⟨hne, hn⟩ := hs.found hn
    · exact ⟨a, v, rfl, ha⟩
    · exact h.weak k ((Finset.mem_insert.1 hk).resolve_left hne) n hn

/-- When one of the constraints besides the links is removed, the chain is held with the others. -/
theorem Hosted.ensures_removeConstraint (h : chain.Hosted twoWay stays m.solver) (hc : c ∈ stays) :
    Ensures (SolveM.removeConstraint fuel c) m fun r m' => m'.solver.passes < 2 ^ 64 →
      r = .ok () ∧ chain.Hosted twoWay (stays.erase c) m'.solver := by
  obtain ⟨_, node, v, hnode, hsink, _⟩ := h.row.pin hc
  refine ((SolveM.ensures_removeConstraint_orderly h.orderly h.guarded hnode hsink).and
    (forward_frame.removeConstraint fuel c m)).mono ?_
  rintro r m' ⟨hremoved, hconfig, _⟩ hlt
  obtain ⟨hr, horderly, hmeets, s₁, hstands, he⟩ := hremoved hlt
  refine ⟨hr, horderly, (h.row.stands hstands).erased he hc, fun k hk node hnode => ?_,
    hconfig ▸ h.writeStrength, hmeets⟩
  obtain ⟨hne, hk⟩ := Finset.mem_erase.1 hk
  rw [he.constraintAt_ne hne] at hnode
  obtain ⟨n, hn, hd, _⟩ := hstands.symm.constraint_of hnode
  rw [← hd]
  exact h.weak k hk n hn

/-- When a link is enabled, this succeeds and the chain is held. -/
theorem Hosted.ensures_enable (h : chain.Hosted twoWay stays m.solver) (hk : k ∈ chain.links) :
    Ensures (SolveM.enable fuel k) m fun r m' => m'.solver.passes < 2 ^ 64 →
      r = .ok () ∧ chain.Hosted twoWay stays m'.solver := by
  obtain ⟨i, hi⟩ := List.mem_iff_getElem?.1 hk
  obtain ⟨v, w, node, _, _, hnode, hlinks⟩ := h.row.link hi
  refine ((SolveM.ensures_enable_orderly h.orderly (h.row.forestWith k) hnode fun _ hreq => ?_).and
    ((SolveM.ensures_enable_guarded h.orderly.toSound h.guarded fun node hnode =>
      h.keeps hnode passes_const).and
    (SolveM.enable_obeys (forward_frame.enterFrame k) fuel m))).mono ?_
  · rw [hlinks.strength] at hreq
    cases hreq
  · rintro r m' ⟨henabled, hguarded, hconfig, _⟩ hlt
    obtain ⟨hr, horderly, ht⟩ := henabled hlt
    exact ⟨hr, h.of_stands ht.stands horderly hconfig hguarded.2⟩

/-- When a link is disabled, this succeeds and the chain is held. -/
theorem Hosted.ensures_disable (h : chain.Hosted twoWay stays m.solver) (hk : k ∈ chain.links) :
    Ensures (SolveM.disable fuel k) m fun r m' => m'.solver.passes < 2 ^ 64 →
      r = .ok () ∧ chain.Hosted twoWay stays m'.solver := by
  obtain ⟨i, hi⟩ := List.mem_iff_getElem?.1 hk
  obtain ⟨v, w, node, _, _, hnode, _⟩ := h.row.link hi
  refine ((SolveM.ensures_disable_orderly h.orderly hnode).and
    ((SolveM.ensures_disable_guarded h.orderly.toWellFormed h.guarded).and
    (SolveM.disable_obeys (forward_frame.enterFrame k).toLeaveFrame fuel m))).mono ?_
  rintro r m' ⟨hdisabled, hguarded, hconfig, _⟩ hlt
  obtain ⟨hr, horderly, ht⟩ := hdisabled hlt
  exact ⟨hr, h.of_stands ht.stands horderly hconfig hguarded.2⟩

end Calls

end Chain

end DeltaBlue
