import DeltaBlue.Proofs.CallTree
import DeltaBlue.Proofs.Directory
import DeltaBlue.Proofs.Guarding
import DeltaBlue.Proofs.Price

/-!
# Outcomes of a write

A value that is written comes to one of three ends. If every enabled constraint on the variable is
volatile, only the cell of the variable is set. If the variable is held at least as strongly as values
are written, the constraint that the value is written through is blocked, and nothing is changed by
enabling and disabling it. Otherwise this constraint sets the variable when it is enabled
(`Solver.Fixes`) and, since the pass has claimed the variable, it still does so when the pass is over.
When it is disabled, the cell keeps the value unless another constraint gets hold of the variable
(`Solver.Retains`).
-/

namespace DeltaBlue

/-- A method that sets its output to a constant does so whatever the cells. -/
theorem Method.store_edit {W T : Type} {method : Method W T} {value : T}
    (haction : method.action = .edit value) (cell : VarId → Cell T) (w : W) (old : Cell T) :
    (method.runOn (valuesFrom cell method.inputs) w).1.store old = .assigned value := by
  rw [method.inputs_nil (by rw [haction]; rfl)]
  change (method.run [] w).1.store old = _
  rw [Method.run, haction]
  rfl

namespace Definition

variable {W T : Type} {a : Strength} {label : Option String} {v u : VarId} {value : T}

/-- An edit mentions its variable only. -/
theorem mem_vars_edit : u ∈ (edit a label v value : Definition W T).vars ↔ u = v := by
  rw [mem_vars_iff (m := .edit v value) List.mem_cons_self]
  exact or_iff_left List.not_mem_nil

/-- There is nothing on which the value could depend. -/
theorem constantFrom_edit (constant : VarId → Bool) :
    (edit a label v value : Definition W T).constantFrom constant v = true := by
  refine Bool.and_eq_true_iff.2 ⟨rfl, List.all_eq_true.2 fun u hu => ?_⟩
  obtain ⟨hu, hne⟩ := List.mem_filter.1 hu
  exact absurd (mem_vars_edit.1 hu) (by simpa using hne)

end Definition

namespace Solver

open SolveM (Ensures writer writesDirectly)

variable {W T : Type} {s s' : Solver W T} {c k : ConstraintId} {node : Constraint W T} {v : VarId}
  {value : T} {mark : Mark}

/-! ## Direct writes -/

/-- The enabled constraints on the variable are all volatile. -/
def OnlyVolatile (s : Solver W T) (v : VarId) : Prop :=
  ∀ c node, s.constraintAt? c = some node → node.enabled = true → v ∈ node.definition.vars →
    node.definition.volatile = true

/-- The constraints on a variable are the enabled ones that mention it. -/
theorem WellFormed.writesDirectly_iff (h : s.WellFormed) {x : Variable T}
    (hx : s.variableAt? v = some x) : writesDirectly s x = true ↔ s.OnlyVolatile v := by
  unfold writesDirectly OnlyVolatile
  simp only [List.all_eq_true, Option.any_eq_true]
  constructor
  · intro hall c node hnode hen hv
    obtain ⟨n, hn, hvolatile⟩ := hall c ((h.incident hx c).2 ⟨node, hnode, hen, hv⟩)
    obtain rfl := Option.some.inj (hnode.symm.trans hn)
    exact hvolatile
  · intro honly c hc
    obtain ⟨node, hnode, hen, hv⟩ := (h.incident hx c).1 hc
    exact ⟨node, hnode, honly c node hnode hen hv⟩

/-! ## The constraint that a value is written through -/

/-- The constraint that a value is written through is blocked if the variable is held at least as
strongly as values are written. -/
theorem writer_blocked_iff (hc : s.constraintAt? c = some (writer s' v value)) :
    s.Blocked c ↔ s'.config.writeStrength ≤ s.walkAt v := by
  constructor
  · rintro ⟨n, hn, hheld⟩
    obtain rfl := Option.some.inj (hc.symm.trans hn)
    exact hheld (.edit v value) List.mem_cons_self
  · intro hle
    refine ⟨_, hc, fun m hm => ?_⟩
    obtain rfl := List.mem_singleton.1 hm
    exact hle

/-- The method in force of the constraint sets the variable to the value, and it is set. -/
structure Fixes (s : Solver W T) (c : ConstraintId) (v : VarId) (value : T) : Prop where
  /-- The method in force. -/
  enforcing : ∃ node method, s.constraintAt? c = some node ∧
    node.enforcingMethod? = some method ∧ method.output = v ∧ method.action = .edit value
  /-- The cell. -/
  cell : s.cellAt v = .assigned value

/-- A constraint that fixes a variable determines it. -/
theorem Fixes.determines (h : s.Fixes c v value) : s.Determines c v := by
  obtain ⟨node, method, hnode, hmethod, hout, _⟩ := h.enforcing
  refine ⟨node, hnode, ?_⟩
  rw [Constraint.output?, hmethod]
  exact congrArg some hout

/-- A constraint was stored under a new key, and is not part of the graph. -/
structure Shelved (cells : Prop) (s s' : Solver W T) (c : ConstraintId) (node : Constraint W T) :
    Prop where
  /-- There was room. -/
  room : s.constraints.size ≠ Arena.maxSlots
  /-- The graph is as sound as before. -/
  sound : s'.Sound cells
  /-- The key is new. -/
  fresh : s.constraintAt? c = none
  /-- The constraints afterwards. -/
  constraintAt : ∀ k, s'.constraintAt? k = if k = c then some node else s.constraintAt? k
  /-- The variables are the same. -/
  variableAt : ∀ v, s'.variableAt? v = s.variableAt? v
  /-- No pass was begun. -/
  passes : s'.passes = s.passes
  /-- The constraint is stored aside. -/
  aside : s.Aside s'

/-- The constraint is found under its key. -/
theorem Shelved.stored {cells : Prop} (h : s.Shelved cells s' c node) :
    s'.constraintAt? c = some node := (h.constraintAt c).trans (if_pos rfl)

/-- The other constraints are the same. -/
theorem Shelved.constraintAt_ne {cells : Prop} (h : s.Shelved cells s' c node) {k : ConstraintId}
    (hk : k ≠ c) : s'.constraintAt? k = s.constraintAt? k := (h.constraintAt k).trans (if_neg hk)

/-- A constraint that is found afterwards is the one that was stored, or was found before. -/
theorem Shelved.found {cells : Prop} (h : s.Shelved cells s' c node) {k : ConstraintId}
    {n : Constraint W T} (hn : s'.constraintAt? k = some n) :
    (k = c ∧ n = node) ∨ (k ≠ c ∧ s.constraintAt? k = some n) := by
  by_cases hk : k = c
  · subst hk
    exact .inl ⟨rfl, Option.some.inj (hn.symm.trans h.stored)⟩
  · exact .inr ⟨hk, (h.constraintAt_ne hk).symm.trans hn⟩

/-- The walk strengths are the same. -/
theorem Shelved.walkAt {cells : Prop} (h : s.Shelved cells s' c node) (v : VarId) :
    s'.walkAt v = s.walkAt v := (samePaint_of_eq (h.variableAt v)).1

/-- It does not matter if counters are changed afterwards. -/
theorem Shelved.alike {cells : Prop} {s'' : Solver W T} (h : s.Shelved cells s' c node)
    (ha : s'.Alike s'') (hfaults : s''.metrics.faults = s'.metrics.faults) :
    s.Shelved cells s'' c node where
  room := h.room
  sound := h.sound.alike ha
  fresh := h.fresh
  constraintAt k := (ha.constraintAt k).trans (h.constraintAt k)
  variableAt v := (ha.variableAt v).trans (h.variableAt v)
  passes := ha.passes.trans h.passes
  aside := Aside.transitive.trans h.aside (ha.beside hfaults).toAside

/-- The variable has the value unless a constraint determines it. -/
def Retains (s : Solver W T) (v : VarId) (value : T) : Prop :=
  (∀ k, ¬ s.Determines k v) → s.cellAt v = .assigned value

/-- A variable that is fixed is determined, so there is nothing to retain. -/
theorem Fixes.retains (h : s.Fixes c v value) : s.Retains v value :=
  fun hnone => absurd h.determines (hnone c)

/-- So it is determined by an enabled constraint that mentions it, or by none, and then has the
value. -/
theorem Retains.outcome (hr : s.Retains v value) (h : s.WellFormed) :
    ∃ x, s.variableAt? v = some x ∧ (x.determinedBy = none ∧ x.cell = .assigned value ∨
      ∃ c node, x.determinedBy = some c ∧ s.constraintAt? c = some node ∧ node.enabled = true ∧
        v ∈ node.definition.vars) := by
  by_cases hdet : ∃ k, s.Determines k v
  · obtain ⟨k, node, hnode, hout⟩ := hdet
    have hv := Constraint.mem_vars_of_output? hout
    obtain ⟨x, hx⟩ := Option.isSome_iff_exists.1 (h.mentioned hnode v hv)
    obtain ⟨i, _, hi, _⟩ := Constraint.output?_eq_some_iff.1 hout
    exact ⟨x, hx, .inr ⟨k, node, (h.determined hx k).2 ⟨node, hnode, hout⟩, hnode,
      (h.enforcing hnode hi).1, hv⟩⟩
  · have hcell := hr fun k hk => hdet ⟨k, hk⟩
    cases hx : s.variableAt? v with
    | none =>
      rw [cellAt, hx] at hcell
      cases hcell
    | some x =>
      refine ⟨x, rfl, .inl ⟨?_, (cellAt_eq hx).symm.trans hcell⟩⟩
      exact Option.eq_none_iff_forall_ne_some.2 fun k hk => hdet ⟨k, (h.determined hx k).1 hk⟩

/-- If nothing has changed but the constraint itself, everything is back when the constraint is
erased. -/
theorem Erased.restores {s₁ : Solver W T} (he : s₁.Erased s' c)
    (hc : ∀ k, k ≠ c → s₁.constraintAt? k = s.constraintAt? k)
    (hv : ∀ u, (s₁.variableAt? u).map Variable.standing =
      (s.variableAt? u).map Variable.standing) :
    (∀ k, s'.constraintAt? k = if k = c then none else s.constraintAt? k) ∧
      ∀ u, (s'.variableAt? u).map Variable.standing =
        (s.variableAt? u).map Variable.standing := by
  refine ⟨fun k => ?_, fun u => by rw [he.variableAt, hv]⟩
  rw [he.constraintAt]
  split
  · rfl
  · next hk => exact hc k hk

end Solver

namespace SolveM

open Solver (Fixes Retains Claimed)
open Machine (Lasts Kept)

variable {W T : Type} {m : Machine W T} {c : ConstraintId} {node : Constraint W T}
  {method : Method W T} {v : VarId} {value : T} {mark : Mark} {fuel : Nat}

/-! ## Fixing a variable -/

/-- A recalculation does not unfix a variable. -/
theorem ensures_recalculate_fixes (h : m.solver.WellFormed) (hf : m.solver.Fixes c v value)
    (k : ConstraintId) : Ensures (recalculate k) m fun _ m' => m'.solver.Fixes c v value := by
  refine ((recalculate_repaints k m).and (ensures_recalculate_cellAt k h)).mono ?_
  rintro r m' ⟨hr, hcells⟩
  refine ⟨by rw [hr.constraintAt]; exact hf.enforcing, ?_⟩
  rcases hcells v with hsame | ⟨node, method, w, hnode, hmethod, rfl, hcell⟩
  · exact hsame.trans hf.cell
  · -- only the constraint itself determines the variable
    have hk : m.solver.Determines k method.output :=
      ⟨node, hnode, by rw [Constraint.output?, hmethod]; rfl⟩
    obtain rfl := h.determines_unique hf.determines hk
    obtain ⟨node', method', hnode', hmethod', _, haction⟩ := hf.enforcing
    obtain rfl := Option.some.inj (hnode.symm.trans hnode')
    obtain rfl := Option.some.inj (hmethod.symm.trans hmethod')
    rw [hcell]
    exact method.store_edit haction _ w _

/-- In the rest of the pass that has claimed a fixed variable it stays fixed. -/
theorem fixes_lasts (c : ConstraintId) (v : VarId) (value : T) (mark : Mark) :
    Lasts (W := W) (fun m => m.solver.Claimed mark v ∧ m.solver.Fixes c v value) True mark where
  onAlike hc hv _ h := by
    refine ⟨?_, by rw [hc]; exact h.2.enforcing, ?_⟩
    · unfold Claimed
      rw [hv]
      exact h.1
    · exact (Solver.samePaint_of_eq (hv v)).2.2.trans h.2.cell
  onRecalculate k h hs :=
    ((recalculate_repaints k _).and (ensures_recalculate_fixes h hs.2 k)).mono
      fun _ _ ⟨hr, hf⟩ => ⟨hr.claimed.2 hs.1, hf⟩
  onInstall := by
    rintro m m' k n i method x h hi - ⟨hclaimed, hf⟩
    -- the output is unclaimed
    have hv : v ≠ method.output := by
      rintro rfl
      obtain ⟨y, hy, hmark⟩ := hclaimed
      obtain rfl := Option.some.inj (hi.output.1.symm.trans hy)
      exact hi.output.2.1 hmark
    refine ⟨(hi.claimed_iff h).2 ⟨hv, .inl hclaimed⟩, ?_, (hi.cellAt v).trans hf.cell⟩
    have hdet := hf.determines
    rw [hi.constraintAt, if_neg, if_neg]
    · exact hf.enforcing
    · intro hx
      have hout := (h.determined hi.output.1 c).1 hx
      exact hv (hdet.unique hout)
    · rintro rfl
      exact Solver.not_determines hi.before.1 hi.before.2.2 v hdet
  onClaim u h := by
    obtain ⟨x, hx, hmark⟩ := h.1
    exact ⟨Solver.claimed_marked.2 ⟨by rw [hx]; rfl, .inr ⟨x, hx, hmark⟩⟩, h.2.enforcing,
      (Solver.cellAt_marked u mark v).trans h.2.cell⟩
  onDetach hlost := absurd trivial hlost

/-- Unless the constraint that determines it is taken out, what a variable retains is overwritten only
by a constraint that determines it. -/
theorem retains_lasts (v : VarId) (value : T) (mark : Mark) :
    Lasts (W := W) (fun m => m.solver.Retains v value) True mark where
  onAlike hc hv _ h hnone := by
    refine (Solver.samePaint_of_eq (hv v)).2.2.trans (h fun k hk => hnone k ?_)
    unfold Solver.Determines
    rw [hc]
    exact hk
  onRecalculate := by
    rintro m k h hs
    refine ((recalculate_repaints k m).and (ensures_recalculate_cellAt k h)).mono ?_
    rintro r m' ⟨hr, hcells⟩ hnone
    have hbefore : ∀ j, ¬ m.solver.Determines j v := by
      intro j hj
      refine hnone j ?_
      unfold Solver.Determines
      rw [hr.constraintAt]
      exact hj
    rcases hcells v with hsame | ⟨node, method, w, hnode, hmethod, rfl, _⟩
    · exact hsame.trans (hs hbefore)
    · exact absurd ⟨node, hnode, by rw [Constraint.output?, hmethod]; rfl⟩ (hbefore k)
  onInstall := by
    rintro m m' k n i method x h hi - hs hnone
    have hv : v ≠ method.output := by
      rintro rfl
      exact hnone k hi.determines
    refine (hi.cellAt v).trans (hs fun j hj => hnone j ?_)
    rw [hi.determines_iff h, if_neg hv]
    exact hj
  onClaim u h hnone := (Solver.cellAt_marked u mark v).trans (h hnone)
  onDetach hlost := absurd trivial hlost

/-- Recalculating a constraint that sets a variable to a constant fixes the variable. -/
theorem ensures_recalculate_edit (h : m.solver.WellFormed) (hnode : m.solver.constraintAt? c = some node)
    (hmethod : node.enforcingMethod? = some method) (haction : method.action = .edit value)
    (hconstant : ∀ constant, node.definition.constantFrom constant method.output = true) :
    Ensures (recalculate c) m fun _ m' => m.solver.Repaints m'.solver ∧
      m'.solver.Fixes c method.output value := by
  refine (ensures_recalculate True h.toGrounded hnode).mono ?_
  rintro r m' ⟨_, hw, hsettled, _⟩
  have hnode' := (hw.constraintAt c).trans hnode
  obtain ⟨_, hflag, hcell⟩ := hsettled hnode' hmethod
  have hyields := hcell trivial (hflag.trans (hconstant _))
  rw [method.inputs_nil (by rw [haction]; rfl)] at hyields
  obtain ⟨w, hrun⟩ := hyields
  rw [Method.run, haction] at hrun
  exact ⟨hw.toRepaints, ⟨node, method, hnode', hmethod, rfl, haction⟩, hrun⟩

/-- A walk that begins with a constraint that sets a variable to a constant, and finds no cycle,
fixes the variable. -/
theorem ensures_sweep_fixes (h : m.solver.WellFormed) (hnode : m.solver.constraintAt? c = some node)
    (hmethod : node.enforcingMethod? = some method) (haction : method.action = .edit value)
    (hconstant : ∀ constant, node.definition.constantFrom constant method.output = true) :
    Ensures (sweep mark fuel (.singleton c)) m fun r m' => r = .ok none →
      m'.solver.Fixes c method.output value := by
  have hout : node.output? = some method.output := by rw [Constraint.output?, hmethod]; rfl
  cases fuel with
  | zero => exact ensures_unfinished
  | succ fuel =>
    -- the constraint is recalculated first, and what follows leaves the variable fixed
    change Ensures (getConstraint c >>= fun x => _) m _
    rw [ensures_bind]
    refine .getConstraint hnode ?_
    obtain ⟨x, hx⟩ := Option.isSome_iff_exists.1
      (h.mentioned hnode _ (Constraint.mem_vars_of_output? hout))
    simp only [hout]
    rw [ensures_bind]
    refine .getVariable hx ?_
    simp only
    split
    · exact (ensures_pure _).2 fun hr => by cases hr
    · rw [ensures_bind]
      refine (ensures_recalculate_edit h hnode hmethod haction hconstant).mono ?_
      rintro r m₁ ⟨hr, hf⟩
      cases r with
      | error e => exact fun hr => by cases hr
      | ok _ =>
        simp only [ensures_bind, ensures_getVariable, ensures_ask]
        cases m₁.solver.lookupVariable method.output with
        | error e => exact fun hr => by cases hr
        | ok y =>
          have hkeeps : ∀ k, Preserves (fun m : Machine W T => m.solver.WellFormed ∧
              m.solver.Fixes c method.output value) (recalculate k) :=
            recalculate_preserves fun k h hf => ensures_recalculate_fixes h hf k
          exact (sweep_preserves hkeeps mark fuel _ m₁ ⟨h.repaints hr, hf⟩).mono fun _ _ hs _ => hs.2

section

variable {a : Strength} {label : Option String} {remove : ConstraintId → SolveM W T Unit}
  (hnode : m.solver.constraintAt? c = some node) (hd : node.definition = .edit a label v value)
include hnode hd

/-- Enforcing a constraint that insists on its constant more than the variable is held. -/
theorem ensures_enforce_fixes (h : m.solver.WellFormed) (hidle : m.solver.Idle c)
    (hfree : ¬ m.solver.Claimed mark v) (hlt : m.solver.walkAt v < a) :
    Ensures (enforce remove fuel mark c) m fun r m' =>
      Kept (fun m => m.solver.Claimed mark v ∧ m.solver.Fixes c v value) True r m' ∧
      ∀ k, r = .ok (some k) → m'.solver.Idle k := by
  obtain ⟨n, hn, hen, hnone⟩ := hidle
  obtain rfl := Option.some.inj (hnode.symm.trans hn)
  have hmethods : node.definition.methods = [.edit v value] := congrArg Definition.methods hd
  have hstrength : node.definition.strength = a := congrArg Definition.strength hd
  have hheld : ¬ m.solver.HeldBy mark node.definition.methods node.definition.strength := by
    rw [Solver.heldBy_iff h hnode, hmethods, hstrength]
    intro hheld
    exact absurd hlt (Nat.not_lt_of_le (hheld _ List.mem_cons_self hfree))
  refine (ensures_enforcement remove fuel mark h hnode hen hnone).mono fun r m' hcase => ?_
  cases hcase with
  | refused _ _ hblocked => exact absurd hblocked hheld
  | left _ _ hblocked => exact absurd hblocked hheld
  -- the constraint has one method only, so this is the one installed
  | @enforced m₁ m₂ i method x hi _ _ hsweep =>
    have hmem := Definition.mem_of_method? hi.method
    rw [hmethods, List.mem_singleton] at hmem
    subst hmem
    have h₁ := h.installed hi
    have hnode₁ := (hi.constraintAt c).trans (if_pos rfl)
    have hr := sweep_repaints mark fuel _ m₁ _ m₂ hsweep
    have hf : m₂.solver.Fixes c v value := ensures_sweep_fixes h₁ hnode₁ hi.method rfl
      (fun constant => hd ▸ Definition.constantFrom_edit constant) _ m₂ hsweep rfl
    refine ⟨.inl ⟨(h₁.repaints hr).marked _ _, ?_, hf.enforcing, ?_⟩, fun k hk => ?_⟩
    · have hlive := h₁.mentioned hnode₁ v (hd ▸ Definition.mem_vars_edit.2 rfl)
      exact Solver.claimed_marked.2 ⟨(hr.live v).trans hlive, .inl rfl⟩
    · exact (Solver.cellAt_marked v mark v).trans hf.cell
    · obtain ⟨n, hn, hidle⟩ := hi.displaced_idle h (Except.ok.inj hk)
      exact ⟨n, (hr.constraintAt k).trans hn, hidle⟩
  | cycle _ _ _ _ hbreak =>
    obtain ⟨e, rfl⟩ := breakCycle_fails remove _ _ _ _ _ hbreak
    exact ⟨.inr ⟨trivial, e, rfl⟩, nofun⟩

/-- What the constraint displaces may be enforced again, but not on the variable that is claimed. -/
theorem ensures_displace_fixes {steps : Nat} (h : m.solver.WellFormed) (hidle : m.solver.Idle c)
    (hfree : ¬ m.solver.Claimed mark v) (hlt : m.solver.walkAt v < a) :
    Ensures (displace remove fuel mark steps c) m fun r m' =>
      Kept (fun m => m.solver.Fixes c v value) True r m' := by
  refine ensures_displace_of_enforce (J := fun k m' => k = c ∧ m' = m ∨
    (m'.solver.WellFormed ∧ m'.solver.Claimed mark v ∧ m'.solver.Fixes c v value) ∧
      m'.solver.Idle k) ?_ (.inl ⟨rfl, rfl⟩)
  intro k m' hJ
  have henforce : Ensures (enforce remove fuel mark k) m' fun r m₁ =>
      Kept (fun m => m.solver.Claimed mark v ∧ m.solver.Fixes c v value) True r m₁ ∧
      ∀ k, r = .ok (some k) → m₁.solver.Idle k := by
    -- the first round is that of the constraint itself, and the later ones keep what it has done
    rcases hJ with ⟨rfl, rfl⟩ | ⟨⟨h', hs⟩, hidle'⟩
    · exact ensures_enforce_fixes hnode hd h hidle hfree hlt
    · exact ensures_enforce_lasts (fixes_lasts c v value mark) (fun hlost => absurd trivial hlost)
        h' hs hidle'
  refine henforce.mono ?_
  rintro r m₁ ⟨hkept, hnext⟩
  match r, hkept, hnext with
  | .error e, _, _ => exact .inr ⟨trivial, e, rfl⟩
  | .ok none, hkept, _ => exact .inl ⟨hkept.of_ok.1, hkept.of_ok.2.2⟩
  | .ok (some k), hkept, hnext => exact .inr ⟨hkept.of_ok, hnext k rfl⟩

/-- Adding a constraint that insists on its constant more than the variable is held fixes the
variable. -/
theorem ensures_add_fixes {cells : Prop} (h : m.solver.Sound cells)
    (hpasses : m.solver.passes + 1 < 2 ^ 64) (hidle : m.solver.Idle c)
    (hlt : m.solver.walkAt v < a) :
    Ensures (add fuel c) m (Kept (fun m => m.solver.Fixes c v value) True) := by
  refine ensures_add_of_displace fun fuel => ?_
  exact ensures_displace_fixes
    (m := ⟨{ m.solver with passes := m.solver.passes + 1 }, m.world, m.journal⟩) hnode hd
    h.toWellFormed.nextPass hidle (h.unclaimed hpasses v) hlt

/-- Enabling a constraint that insists on its constant more than the variable is held fixes the
variable, if it succeeds. -/
theorem ensures_enable_fixes {cells : Prop} (h : m.solver.Sound cells)
    (hpasses : m.solver.passes + 1 < 2 ^ 64) (hoff : node.enabled = false)
    (hlt : m.solver.walkAt v < a) :
    Ensures (enable fuel c) m (Kept (fun m => m.solver.Fixes c v value) True) := by
  refine ensures_enable h hnode hoff fun m₁ h₁ he hp₁ _ _ _ => ?_
  have hadd : Ensures (add fuel c) m₁ (Kept (fun m => m.solver.Fixes c v value) True) :=
    ensures_add_fixes ((he.constraintAt c).trans (if_pos rfl)) hd h₁ (hp₁ ▸ hpasses) he.idle
      ((he.walkAt_same v).symm ▸ hlt)
  exact ensures_settle_cases hadd (fun _ hkept => hkept)
    (fun failed _ _ => fun _ _ _ => .inr ⟨trivial, _, rfl⟩) fun _ _ _ hkept => hkept

end

/-! ## Blocked constraints return -/

section

variable {cells : Prop} (hb : m.solver.Blocked c)
include hb

/-- Enforcing a blocked constraint involves no walk. -/
theorem enforce_returns_of_blocked (h : m.solver.WellFormed) (hidle : m.solver.Idle c) :
    Invocation.Returns ⟨fuel, .enforce mark c, m⟩ := by
  have hnone : ∀ o displaced m', exec (install mark c) m ≠ some (.ok (some (o, displaced)), m') := by
    intro o displaced m' hrun
    obtain ⟨_, _, _, _, hi, _⟩ := installed_of_exec h hidle hrun
    exact hi.not_blocked hb
  refine (enforce_accounted mark c).2 ⟨fun r m' hrun => absurd hrun (hnone _ _ _), fun j hj => ?_⟩
  cases hj with
  | breakCycle hinstall => exact absurd hinstall (hnone _ _ _)

/-- A blocked constraint displaces nothing, so the cascade ends with it. -/
theorem displace_returns_of_blocked {steps : Nat} (h : m.solver.WellFormed)
    (hidle : m.solver.Idle c) : Invocation.Returns ⟨fuel, .displace mark (steps + 1) c, m⟩ := by
  refine (displace_accounted mark _ c).2 ⟨Nat.succ_ne_zero _, fun j hj => ?_⟩
  cases hj with
  | enforce => exact enforce_returns_of_blocked hb h hidle
  | displace henforce =>
    obtain ⟨node, hnode, hen, hnone⟩ := hidle
    have hends : Ensures (enforce (remove fuel) fuel mark c) m fun r _ => ∀ k, r ≠ .ok (some k) := by
      refine (ensures_enforcement _ fuel mark h hnode hen hnone).mono fun r m' hcase => ?_
      cases hcase with
      | refused => exact nofun
      | left => exact nofun
      | enforced hi => exact absurd hb hi.not_blocked
      | cycle hi => exact absurd hb hi.not_blocked
    exact absurd rfl (hends _ _ henforce _)

/-- Adding a blocked constraint returns with as little fuel as one pass takes. -/
theorem add_returns_of_blocked (h : m.solver.WellFormed) (hidle : m.solver.Idle c) :
    Invocation.Returns ⟨fuel + 2, .add c, m⟩ := by
  refine (add_accounted c).2 ⟨Nat.succ_ne_zero _, fun j hj => ?_⟩
  cases hj with
  | @pass _ _ mark _ m' hrun =>
    have hnext : Ensures nextMark m fun _ m' =>
        m'.solver = { m.solver with passes := m.solver.passes + 1 } := by
      unfold nextMark
      simp only [ensures_bind, ensures_update, ensures_ask]
    have hsolver := hnext _ _ hrun
    refine displace_returns_of_blocked ?_ ?_ ?_
    · rw [hsolver]
      exact hb
    · rw [hsolver]
      exact h.nextPass
    · rw [hsolver]
      exact hidle

end

/-- Enabling a blocked constraint returns. -/
theorem enable_returns_of_blocked {cells : Prop} (h : m.solver.Sound cells) (hb : m.solver.Blocked c)
    (hnode : m.solver.constraintAt? c = some node) (hoff : node.enabled = false) :
    Invocation.Returns ⟨fuel + 2, .enable c, m⟩ := by
  refine (enable_accounted c).2 ⟨trivial, fun j hj => ?_⟩
  cases hj with
  | @settle _ _ _ _ m₁ hn _ hrun =>
    obtain rfl := Option.some.inj (hnode.symm.trans hn)
    obtain ⟨_, h₁, he, _⟩ := ensures_enter h hnode hoff _ _ hrun
    have hnode₁ := (he.constraintAt c).trans (if_pos rfl)
    refine (settle_accounted c).2 ⟨trivial, fun j hj => ?_⟩
    cases hj with
    | settleAdd => exact add_returns_of_blocked (he.blocked hb) h₁.toWellFormed he.idle
    | @rollBack _ _ failed _ m₂ hadd =>
      obtain ⟨hr, hsame, _⟩ :=
        ensures_add_blocked h₁.toWellFormed he.idle (he.blocked hb) hnode₁ _ _ hadd
      -- the enabling of the constraint itself is taken back
      obtain rfl : failed = c := by
        split at hr
        · exact SolveError.unsatisfiableRequired.inj (Except.error.inj hr)
        · cases hr
      refine (rollBackEnable_accounted _ _).2 ⟨trivial, fun j hj => ?_⟩
      cases hj with
      | rollBackRemove hn henf =>
        obtain rfl := Option.some.inj (((hsame _).trans hnode₁).symm.trans hn)
        cases henf
      | restore hn hrun hundo =>
        refine (restore_accounted _ _).2 ⟨trivial, fun j hj => ?_⟩
        cases hj with
        | restoreAdd hne => exact absurd rfl hne

/-! ## Pulses -/

/-- A constraint is enabled and disabled, whatever comes of it, and forgotten. -/
theorem Ensures.pulse {Q : Except SolveError Unit → Machine W T → Prop}
    (h : ∀ m₀, m.solver.Alike m₀.solver → m₀.solver.metrics.faults = m.solver.metrics.faults →
      m.NoDeed m₀ → Ensures (enable fuel c) m₀ fun result m₁ =>
        Ensures (disable fuel c) m₁ fun cleanup m₂ => ∀ m₃ : Machine W T,
          m₂.solver.Erased m₃.solver c → m₂.NoDeed m₃ → Q (result >>= fun _ => cleanup) m₃) :
    Ensures (pulse fuel v c) m Q := by
  unfold SolveM.pulse
  simp only [ensures_bind, ensures_count, ensures_note, ensures_attempt]
  refine Ensures.mono (h _ ?_ rfl ⟨rfl, rfl⟩) fun result m₁ hresult =>
    hresult.mono fun cleanup m₂ hcleanup => ?_
  · exact ⟨fun _ => rfl, fun _ => rfl, rfl, rfl⟩
  · simp only [ensures_update, ensures_query]
    have he := Solver.erased_eraseConstraint c m₂.solver
    cases result with
    | error e => exact hcleanup _ he ⟨rfl, rfl⟩
    | ok _ => cases cleanup <;> exact hcleanup _ he ⟨rfl, rfl⟩

/-- If the variable was held more weakly than the constraint insists, it retains the value. -/
theorem ensures_pulse_retains {cells : Prop} {a : Strength} {label : Option String}
    (h : m.solver.Sound cells) (hpasses : m.solver.passes + 1 < 2 ^ 64)
    (hnode : m.solver.constraintAt? c = some node) (hd : node.definition = .edit a label v value)
    (hoff : node.enabled = false) (hlt : m.solver.walkAt v < a) :
    Ensures (pulse fuel v c) m fun r m' => r = .ok () →
      m'.solver.WellFormed ∧ m'.solver.Retains v value := by
  refine .pulse fun m₀ halike _ _ => ?_
  have hlt₀ : m₀.solver.walkAt v < a := by
    rw [(Solver.samePaint_of_eq (halike.variableAt v)).1]
    exact hlt
  refine (ensures_enable_fixes ((halike.constraintAt c).trans hnode) hd (h.alike halike)
    (halike.passes ▸ hpasses) hoff hlt₀).mono fun result m₁ hkept => ?_
  cases result with
  | error e => exact fun _ _ _ _ _ _ => nofun
  | ok _ =>
    -- the variable is fixed when the constraint is disabled
    obtain ⟨h₁, hf⟩ := hkept.of_ok
    refine Ensures.mono (Ensures.and (ensures_disable_lasts (retains_lasts v value) h₁ hf.retains
      fun _ m' hd _ _ => (hd.cellAt v).trans hf.cell) (ensures_disable fuel c)) ?_
    rintro cleanup m₂ ⟨hkept₂, _, hnot⟩ m₃ he _ hok
    obtain rfl : cleanup = .ok () := hok
    obtain ⟨h₂, hs₂⟩ := hkept₂.of_ok
    refine ⟨h₂.erased he hnot, fun hnone => ?_⟩
    exact (Solver.samePaint_of_eq (he.variableAt v)).2.2.trans
      (hs₂ fun k hk => hnone k ((he.determines_iff hnot h₂).2 hk))

/-- If the constraint is blocked, nothing else has changed when it is gone. -/
theorem ensures_pulse_blocked {cells : Prop} (h : m.solver.Sound cells) (hb : m.solver.Blocked c)
    (hnode : m.solver.constraintAt? c = some node) (hoff : node.enabled = false) :
    Ensures (pulse fuel v c) m fun r m' =>
      (r = if node.definition.strength = .required then .error (.unsatisfiableRequired c)
        else .ok ()) ∧
      (∀ k, m'.solver.constraintAt? k = if k = c then none else m.solver.constraintAt? k) ∧
      ∀ u, (m'.solver.variableAt? u).map Variable.standing =
        (m.solver.variableAt? u).map Variable.standing := by
  refine .pulse fun m₀ halike _ _ => ?_
  refine (ensures_enable_blocked (h.alike halike) (hb.congr halike.constraintAt fun u =>
      (Solver.samePaint_of_eq (halike.variableAt u)).1)
    ((halike.constraintAt c).trans hnode) hoff).mono ?_
  rintro result m₁ ⟨rfl, hconstraints, hvariables⟩
  have hnode₁ := (hconstraints c).trans (if_pos rfl)
  have hc₁ : ∀ k, k ≠ c → m₁.solver.constraintAt? k = m.solver.constraintAt? k :=
    fun k hk => ((hconstraints k).trans (if_neg hk)).trans (halike.constraintAt k)
  have hv₁ : ∀ u, (m₁.solver.variableAt? u).map Variable.standing =
      (m.solver.variableAt? u).map Variable.standing :=
    fun u => (hvariables u).trans (congrArg _ (halike.variableAt u))
  refine ensures_disable_cases (fun r hr hnot m₃ he _ => ?_) fun n m₂ hoff₂ _ _ _ _ => ?_
  · obtain rfl : r = .ok () := hr.resolve_right fun hnone => by cases hnode₁.symm.trans hnone
    refine ⟨?_, he.restores hc₁ hv₁⟩
    split <;> rfl
  · obtain rfl := Option.some.inj (hnode₁.symm.trans hoff₂.before)
    rw [if_neg (by simp [Constraint.isEnforcing])]
    refine (ensures_deregister hoff₂ rfl).mono ?_
    rintro r m₂' ⟨rfl, hd, _⟩ m₃ he _
    have hc₂ : ∀ k, k ≠ c → m₂'.solver.constraintAt? k = m.solver.constraintAt? k :=
      fun k hk => ((hd.constraintAt k).trans (if_neg hk)).trans (hc₁ k hk)
    refine ⟨?_, he.restores hc₂ fun u => (hd.standing rfl u).trans (hv₁ u)⟩
    split <;> rfl

/-- To enable a blocked constraint for a moment returns. -/
theorem pulse_returns_of_blocked {cells : Prop} (h : m.solver.Sound cells)
    (hb : m.solver.Blocked c) (hnode : m.solver.constraintAt? c = some node)
    (hoff : node.enabled = false) : Invocation.Returns ⟨fuel + 2, .pulse v c, m⟩ := by
  refine (pulse_accounted v c).2 ⟨trivial, fun j hj => ?_⟩
  have hbegin : Ensures (do
      count fun x => { x with edits := x.edits + 1 }
      note (.writesThrough v c)) m fun _ m' => m.solver.Alike m'.solver := by
    simp only [ensures_bind, ensures_count, ensures_note]
    exact ⟨fun _ => rfl, fun _ => rfl, rfl, rfl⟩
  cases hj with
  | pulseEnable hrun =>
    have halike := hbegin _ _ hrun
    exact enable_returns_of_blocked (h.alike halike) (hb.congr halike.constraintAt fun u =>
      (Solver.samePaint_of_eq (halike.variableAt u)).1) ((halike.constraintAt c).trans hnode) hoff
  | pulseDisable hrun henable =>
    have halike := hbegin _ _ hrun
    obtain ⟨_, hconstraints, _⟩ := ensures_enable_blocked (h.alike halike)
      (hb.congr halike.constraintAt fun u => (Solver.samePaint_of_eq (halike.variableAt u)).1)
      ((halike.constraintAt c).trans hnode) hoff _ _ henable
    refine (disable_accounted c).2 ⟨trivial, fun j hj => ?_⟩
    cases hj with
    -- a blocked constraint has no method in force, so there is nothing to remove
    | disableRemove hn _ henf =>
      obtain rfl := Option.some.inj (((hconstraints c).trans (if_pos rfl)).symm.trans hn)
      cases henf

/-! ## Writes -/

/-- A variable is made if there is room. -/
theorem ensures_storeVariable_ok {x : Variable T}
    (hroom : m.solver.vars.size ≠ Arena.maxSlots) :
    Ensures (storeVariable x) m fun r _ => ∃ v, r = .ok v := by
  unfold storeVariable
  rw [ensures_bind, ensures_query]
  cases hinsert : m.solver.vars.insert x with
  | error e => exact absurd (Arena.insert_eq_error_iff_size.1 hinsert).1 hroom
  | ok p => exact (ensures_bind _ _).2 ((ensures_update _).2 ((ensures_pure _).2 ⟨_, rfl⟩))

/-- A constraint is stored, not part of the graph, if there is room. -/
theorem ensures_storeConstraint_shelved {cells : Prop} (hoff : node.enabled = false)
    (hidle : node.enforcing = none)
    (hlive : ∀ u ∈ node.definition.vars, (m.solver.variableAt? u).isSome) (h : m.solver.Sound cells) :
    Ensures (storeConstraint node) m fun r m' =>
      match r with
      | .ok c => m.solver.Shelved cells m'.solver c node
      | .error e => m.solver.constraints.size = Arena.maxSlots ∧
        e = .arena (.capacityExceeded Arena.maxSlots) ∧ m' = m := by
  have hstored : Ensures (storeConstraint node) m _ := ensures_storeConstraint hoff hidle hlive h
  refine Ensures.mono (hstored.and (Q := fun r m' => match r with
    | .ok c => m.solver.constraints.size ≠ Arena.maxSlots ∧
      (∀ v, m'.solver.variableAt? v = m.solver.variableAt? v) ∧
      m'.solver.passes = m.solver.passes
    | .error e => m.solver.constraints.size = Arena.maxSlots ∧
      e = .arena (.capacityExceeded Arena.maxSlots) ∧ m' = m) ?_) ?_
  · unfold storeConstraint
    rw [ensures_bind, ensures_query]
    cases hins : m.solver.constraints.insert node with
    | error e =>
      obtain ⟨hsize, rfl⟩ := Arena.insert_eq_error_iff_size.1 hins
      exact ⟨hsize, rfl, rfl⟩
    | ok p =>
      simp only [Except.mapError, ensures_bind, ensures_update, ensures_pure]
      refine ⟨fun hsize => ?_, fun _ => rfl, trivial⟩
      cases hins.symm.trans (Arena.insert_eq_error_iff_size.2 ⟨hsize, rfl⟩)
  · rintro r m' ⟨⟨⟨h', hbeside⟩, hmade⟩, hrest⟩
    cases r with
    | error e => exact hrest
    | ok c => exact ⟨hrest.1, h', hmade.1, hmade.2, hrest.2.1, hrest.2.2, hbeside.toAside⟩

/-- The constraint that a value is written through is stored, if there is room. -/
theorem ensures_store_writer {cells : Prop} (h : m.solver.Sound cells)
    (hv : (m.solver.variableAt? v).isSome) :
    Ensures (storeConstraint (writer m.solver v value)) m fun r m' =>
      match r with
      | .ok c => m.solver.Shelved cells m'.solver c (writer m.solver v value)
      | .error e => m.solver.constraints.size = Arena.maxSlots ∧
        e = .arena (.capacityExceeded Arena.maxSlots) ∧ m' = m := by
  refine ensures_storeConstraint_shelved rfl rfl (fun u hu => ?_) h
  rw [eq_of_mem_writer hu]
  exact hv

section

variable {x : Variable T} {Q : Except SolveError Unit → Machine W T → Prop}
  (hx : m.solver.variableAt? v = some x)
include hx

/-- A write to a variable whose enabled constraints are all volatile is a direct one. -/
theorem ensures_write_of_direct (hdirect : writesDirectly m.solver x = true) :
    Ensures (write fuel v value) m Q ↔ Ensures (writeDirectly v value) m Q := by
  unfold write
  rw [ensures_bind, ensures_getVariable, Solver.lookupVariable_eq_ok hx]
  simp only [ensures_bind, ensures_ask]
  unfold writesDirectly at hdirect
  rw [if_pos hdirect]

/-- Any other write goes through a constraint that is stored for it. -/
theorem ensures_write_of_through (hthrough : writesDirectly m.solver x = false) :
    Ensures (write fuel v value) m Q ↔
      Ensures (storeConstraint (writer m.solver v value) >>= pulse fuel v) m Q := by
  unfold write
  rw [ensures_bind, ensures_getVariable, Solver.lookupVariable_eq_ok hx]
  simp only [ensures_bind, ensures_ask]
  unfold writesDirectly at hthrough
  rw [if_neg (Bool.eq_false_iff.1 hthrough), writeThrough_eq]
  simp only [ensures_bind, ensures_ask]
  rfl

/-- A direct write succeeds and sets the cell of the variable only. -/
theorem ensures_write_direct (hdirect : writesDirectly m.solver x = true)
    (hQ : ∀ m', m.solver.Rewrites m'.solver → (∀ u, m'.solver.cellAt u =
      if u = v then .assigned value else m.solver.cellAt u) → Q (.ok ()) m') :
    Ensures (write fuel v value) m Q := by
  rw [ensures_write_of_direct hx hdirect]
  unfold writeDirectly
  rw [ensures_bind]
  refine .changeVariable hx ?_
  simp only [ensures_bind, ensures_count, ensures_note]
  have hr := Solver.rewrites_modifyVariable (.assigned value) v m.solver
  refine hQ _ (Solver.Rewrites.transitive.trans hr
    (Solver.Alike.rewrites ⟨fun _ => rfl, fun _ => rfl, rfl, rfl⟩ rfl)) fun u => ?_
  change (m.solver.modifyVariable v fun y => { y with cell := .assigned value }).cellAt u = _
  unfold Solver.cellAt
  rw [Solver.variableAt?_modifyVariable]
  by_cases hu : u = v
  · subst hu
    simp [hx]
  · simp [hu]

/-- A write that is not direct stores a constraint and enables it for a moment, if there is room. -/
theorem ensures_write_through {cells : Prop} (h : m.solver.Sound cells)
    (hthrough : writesDirectly m.solver x = false)
    (hfull : m.solver.constraints.size = Arena.maxSlots →
      Q (.error (.arena (.capacityExceeded Arena.maxSlots))) m)
    (hpulse : ∀ c m₁, m.solver.Shelved cells m₁.solver c (writer m.solver v value) →
      Ensures (pulse fuel v c) m₁ Q) : Ensures (write fuel v value) m Q := by
  rw [ensures_write_of_through hx hthrough, ensures_bind]
  refine Ensures.mono (ensures_store_writer h (by rw [hx]; rfl)) fun r m₁ hr => ?_
  cases r with
  | error e =>
    obtain ⟨hsize, rfl, rfl⟩ := hr
    exact hfull hsize
  | ok c => exact hpulse c m₁ hr

end

/-- A write returns if the constraint that the value is written through, if any, can be pulsed. -/
theorem isSome_write (hpulse : ∀ x c m₁, m.solver.variableAt? v = some x →
      writesDirectly m.solver x = false →
      exec (storeConstraint (writer m.solver v value)) m = some (.ok c, m₁) →
      Invocation.Returns ⟨fuel, .pulse v c, m₁⟩) :
    (exec ((Call.write v value).run fuel) m).isSome := by
  refine (isSome_before fun _ => .pure _).1
    ((write_accounted v value).2 ⟨trivial, fun j hj => ?_⟩)
  cases hj with
  | store hstore => cases hstore
  | write hx hthrough hrun => exact hpulse _ _ _ hx hthrough hrun

end SolveM

namespace Call

open SolveM (exec Ensures Circles exec_eq_none_of_stop?)

variable {W T : Type} {m : Machine W T} {call : Call W T}
  {Q : Except SolveError (Answer W T) → Machine W T → Prop}

/-- A call that is finished within every amount of fuel above some bound returns. -/
theorem endsIn_of_isSome (k : Nat) (hsome : ∀ fuel, (exec (call.run (fuel + k)) m).isSome)
    (hends : ∀ fuel, Ensures (call.run fuel) m Q) : call.EndsIn m Q := by
  refine endsIn_of_returns ((call.run_concludes m).resolve_right ?_) hends
  rintro ⟨s, _, bound, hround⟩
  obtain ⟨m', hstop, _⟩ := hround (bound + k) (Nat.le_add_right bound k)
  have hsome := hsome bound
  rw [exec_eq_none_of_stop? hstop] at hsome
  cases hsome

end Call

namespace Run

open SolveM (Ensures)

variable {W T : Type} {own : Prop} {config : Config} {plans : List (Plan × Nat)} {m : Machine W T}
  {v : VarId}

/-- What a write comes to depends on the enabled constraints on the variable and on how strongly it is
held. If all of the constraints are volatile, the write succeeds, and the cell of the variable is all
that changes. Otherwise, if the variable is held at least as strongly as values are written, nothing
changes; the write succeeds unless values are written as required, or no more constraints can be stored.
Otherwise, if the write succeeds, the variable has the value and no constraint determines it, or it is
determined by an enabled constraint that mentions it. -/
theorem write_outcomes (h : Run own config plans m) (hv : (m.solver.variableAt? v).isSome)
    (value : T) :
    (m.solver.OnlyVolatile v → (Call.write v value).EndsIn m fun r m' => r = .ok .done ∧
      m.solver.Rewrites m'.solver ∧
      ∀ u, m'.solver.cellAt u = if u = v then .assigned value else m.solver.cellAt u) ∧
    (¬ m.solver.OnlyVolatile v → m.solver.config.writeStrength ≤ m.solver.walkAt v →
      (Call.write v value).EndsIn m fun r m' =>
        (m.solver.constraints.size = Arena.maxSlots ∧
            r = .error (.arena (.capacityExceeded Arena.maxSlots)) ∨
          m.solver.constraints.size ≠ Arena.maxSlots ∧ ∃ c, m.solver.constraintAt? c = none ∧
            r = if m.solver.config.writeStrength = .required then .error (.unsatisfiableRequired c)
              else .ok .done) ∧
      (∀ k, m'.solver.constraintAt? k = m.solver.constraintAt? k) ∧
      ∀ u, (m'.solver.variableAt? u).map Variable.standing =
        (m.solver.variableAt? u).map Variable.standing) ∧
    (¬ m.solver.OnlyVolatile v → m.solver.walkAt v < m.solver.config.writeStrength →
      m.solver.passes + 1 < 2 ^ 64 → ∀ fuel, Ensures ((Call.write v value).run fuel) m fun r m' =>
        r = .ok .done → ∃ x, m'.solver.variableAt? v = some x ∧
          (x.determinedBy = none ∧ x.cell = .assigned value ∨
            ∃ c node, x.determinedBy = some c ∧ m'.solver.constraintAt? c = some node ∧
              node.enabled = true ∧ v ∈ node.definition.vars)) := by
  have hsound := h.sound.1
  obtain ⟨x, hx⟩ := Option.isSome_iff_exists.1 hv
  refine ⟨fun honly => ?_, fun honly hheld => ?_, fun honly hlt hpasses fuel => ?_⟩
  · -- a direct write
    have hdirect := (hsound.writesDirectly_iff hx).2 honly
    refine Call.endsIn_of_isSome 0 (fun fuel => SolveM.isSome_write fun y c m₁ hy hthrough _ => ?_)
      fun fuel => ?_
    · obtain rfl := Option.some.inj (hx.symm.trans hy)
      rw [hdirect] at hthrough
      cases hthrough
    · refine Call.ensures_done ?_
      exact SolveM.ensures_write_direct hx hdirect fun m' hr hcells => ⟨rfl, hr, hcells⟩
  · -- a write in vain: the constraint is stored, blocked and erased
    have hthrough := Bool.eq_false_iff.2 (mt (hsound.writesDirectly_iff hx).1 honly)
    have hblocked : ∀ {c} {m₁ : Machine W T},
        m.solver.Shelved own m₁.solver c (SolveM.writer m.solver v value) → m₁.solver.Blocked c :=
      fun hs => (Solver.writer_blocked_iff hs.stored).2 ((hs.walkAt v).symm ▸ hheld)
    refine Call.endsIn_of_isSome 2 (fun fuel => SolveM.isSome_write fun y c m₁ _ _ hrun => ?_)
      fun fuel => Call.ensures_done ?_
    · have hs := SolveM.ensures_store_writer hsound hv _ _ hrun
      exact SolveM.pulse_returns_of_blocked hs.sound (hblocked hs) hs.stored rfl
    · refine SolveM.ensures_write_through hx hsound hthrough
        (fun hfull => ⟨.inl ⟨hfull, rfl⟩, fun _ => rfl, fun _ => rfl⟩) fun c m₁ hs => ?_
      refine (SolveM.ensures_pulse_blocked hs.sound (hblocked hs) hs.stored rfl).mono ?_
      rintro _ m₂ ⟨rfl, hconstraints, hvariables⟩
      refine ⟨.inr ⟨hs.room, c, hs.fresh, ?_⟩, fun k => ?_, fun u => ?_⟩
      · change Except.map _ (if m.solver.config.writeStrength = .required then _ else _) = _
        split <;> rfl
      · rw [hconstraints, hs.constraintAt]
        split
        · next hk => rw [hk, hs.fresh]
        · rfl
      · rw [hvariables, hs.variableAt]
  · -- a write that sets the variable
    have hthrough := Bool.eq_false_iff.2 (mt (hsound.writesDirectly_iff hx).1 honly)
    refine Call.ensures_done (SolveM.ensures_write_through hx hsound hthrough (fun _ => nofun)
      fun c m₁ hs => ?_)
    refine (SolveM.ensures_pulse_retains hs.sound (hs.passes ▸ hpasses) hs.stored rfl rfl
      ((hs.walkAt v).symm ▸ hlt)).mono fun r m₂ hretains hok => ?_
    cases r with
    | error e => cases hok
    | ok _ =>
      obtain ⟨h₂, hr⟩ := hretains rfl
      exact hr.outcome h₂

/-- Three variables: one free, one held strongly and one held weakly. -/
def heldVariously : List (Call Unit Nat) :=
  [.newVariables [1, 2, 3], .stay ⟨1, 0⟩ .strong, .stay ⟨2, 0⟩ .weak]

/-- Values are written at medium strength: into the first variable directly, into the second in vain, and
the third is held by the weak constraint again in the end. -/
theorem write_outcomes_heldVariously : ∃ m : Machine Unit Nat,
    Call.runAll 9 heldVariously ⟨.empty { writeStrength := .medium }, (), []⟩ = some m ∧
    ((Call.write ⟨0, 0⟩ 7).EndsIn m fun r m' =>
      r = .ok .done ∧ m'.solver.cellAt ⟨0, 0⟩ = .assigned 7) ∧
    ((Call.write ⟨1, 0⟩ 7).EndsIn m fun r m' => r = .ok .done ∧
      ∀ u, (m'.solver.variableAt? u).map Variable.standing =
        (m.solver.variableAt? u).map Variable.standing) ∧
    ∃ m' x c node, SolveM.exec ((Call.write ⟨2, 0⟩ 7).run 9) m = some (.ok .done, m') ∧
      m'.solver.variableAt? ⟨2, 0⟩ = some x ∧ x.determinedBy = some c ∧
      m'.solver.constraintAt? c = some node ∧ node.enabled = true := by
  have hany : (Call.runAll 9 heldVariously
      ⟨.empty { writeStrength := .medium }, (), []⟩).any (fun m =>
      m.solver.passes + 1 < 2 ^ 64 ∧ m.solver.config.writeStrength = .medium ∧
      m.solver.constraints.size ≠ Arena.maxSlots ∧
      m.solver.walkAt ⟨1, 0⟩ = .strong ∧ m.solver.walkAt ⟨2, 0⟩ = .weak ∧
      (m.solver.variableAt? ⟨0, 0⟩).any (SolveM.writesDirectly m.solver) ∧
      (m.solver.variableAt? ⟨1, 0⟩).any (!SolveM.writesDirectly m.solver ·) ∧
      (m.solver.variableAt? ⟨2, 0⟩).any (!SolveM.writesDirectly m.solver ·) ∧
      (SolveM.exec ((Call.write ⟨2, 0⟩ 7).run 9) m).any fun p => Call.isDone p.1 ∧
        (p.2.solver.variableAt? ⟨2, 0⟩).any (·.determinedBy ≠ none)) = true := by
    decide +kernel
  simp only [Option.any_eq_true, decide_eq_true_eq, Bool.not_eq_true'] at hany
  obtain ⟨m, hm, hpasses, hstrength, hroom, hstrong, hweak, ⟨x₀, hx₀, hdirect⟩,
    ⟨x₁, hx₁, hthrough₁⟩, ⟨x₂, hx₂, hthrough₂⟩, ⟨r, m'⟩, hexec, hr, x', hx', hdet⟩ := hany
  obtain rfl := Call.eq_done_of_isDone hr
  have hstart : Run False { writeStrength := .medium } []
      (⟨.empty { writeStrength := .medium }, (), []⟩ : Machine Unit Nat) := .start ()
  obtain ⟨plans, h⟩ := runAll hstart (by decide) hm
  have hwell := h.sound.1.toWellFormed
  obtain ⟨hfree, _, _⟩ := write_outcomes h (by rw [hx₀]; rfl) 7
  obtain ⟨_, hheld, _⟩ := write_outcomes h (by rw [hx₁]; rfl) 7
  obtain ⟨_, _, hyields⟩ := write_outcomes h (by rw [hx₂]; rfl) 7
  have hthrough : ∀ {v x}, m.solver.variableAt? v = some x →
      SolveM.writesDirectly m.solver x = false → ¬ m.solver.OnlyVolatile v :=
    fun hx hthrough honly => by
      cases hthrough.symm.trans ((hwell.writesDirectly_iff hx).2 honly)
  refine ⟨m, hm, ?_, ?_, ?_⟩
  · refine (hfree ((hwell.writesDirectly_iff hx₀).1 hdirect)).mono ?_
    rintro r m₁ ⟨rfl, _, hcell⟩
    exact ⟨rfl, (hcell _).trans (if_pos rfl)⟩
  · refine (hheld (hthrough hx₁ hthrough₁) (by rw [hstrength, hstrong]; decide)).mono ?_
    rintro r m₁ ⟨hr, _, hstanding⟩
    obtain ⟨_, c, _, hr⟩ := hr.resolve_left fun hfull => hroom hfull.1
    rw [hstrength] at hr
    exact ⟨hr, hstanding⟩
  · obtain ⟨x, hx, hend⟩ := hyields (hthrough hx₂ hthrough₂) (by rw [hstrength, hweak]; decide)
      hpasses 9 _ m' hexec rfl
    obtain rfl := Option.some.inj (hx'.symm.trans hx)
    obtain ⟨c, node, hc, hnode, hen, _⟩ := hend.resolve_left fun hfree => hdet hfree.1
    exact ⟨m', x', c, node, hexec, hx, hc, hnode, hen⟩

end Run

end DeltaBlue
