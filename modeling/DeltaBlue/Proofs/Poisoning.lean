import DeltaBlue.Proofs.Execution
import DeltaBlue.Proofs.Writing

/-!
# Cells that are left alone

A method that keeps its output, or shows its inputs to an observer, does not set its output. But a
method is not run at all when one of its inputs has no value, and then its output is poisoned, whatever
the method does. So a variable into which only such methods are run keeps its cell exactly until one of
them fails for want of a value: what its cell has become is told by the deeds that were done
(`Machine.Accounts`).
-/

namespace DeltaBlue

/-! ## Methods that do not set their output -/

/-- Whether an action gives the output a value. -/
def Action.sets {W T : Type} : Action W T → Bool
  | edit _ | compute _ => true
  | stay | observe _ => false

/-- A method that does not set its output changes it only when it fails for want of a value. -/
theorem Method.store_of_not_sets {W T : Type} {method : Method W T}
    (h : method.action.sets = false) (values : Except FormulaError (List T)) (w : W) (cell : Cell T) :
    (method.runOn values w).1.store cell =
      match values with
      | .error cause => .poisoned cause
      | .ok _ => cell := by
  cases values with
  | error cause => rfl
  | ok values =>
    simp only [runOn, run]
    cases haction : method.action with
    | edit value => rw [haction] at h; cases h
    | compute f => rw [haction] at h; cases h
    | stay => rfl
    | observe f => rfl

/-- Why a deed poisons the variable without running anything, if it does. -/
def Notice.want? {T : Type} (v : VarId) : Notice T → Option FormulaError
  | .executed _ o (.error cause) => if o = v then some cause else none
  | _ => none

/-- What becomes of the cell of a variable when the methods that were run into it do not set it: the
latest failure for want of a value has poisoned it. -/
def Cell.afterWants {T : Type} (v : VarId) (deeds : List (Notice T)) (cell : Cell T) : Cell T :=
  match deeds.findSome? (Notice.want? v) with
  | some cause => .poisoned cause
  | none => cell

namespace Cell

variable {T : Type} {v o : VarId} {c : ConstraintId} {new deeds : List (Notice T)} {cell : Cell T}

/-- Deeds that run nothing into the variable do not poison it. -/
theorem afterWants_append (h : ∀ c values, .executed c v values ∉ new) :
    cell.afterWants v (new ++ deeds) = cell.afterWants v deeds := by
  have hnone : new.findSome? (Notice.want? v) = none := by
    refine List.findSome?_eq_none_iff.2 fun n hn => ?_
    unfold Notice.want?
    split
    · next c o cause => exact if_neg fun ho => h c _ (ho ▸ hn)
    · rfl
  unfold afterWants
  rw [List.findSome?_append, hnone, Option.none_or]

/-- A run into the variable poisons it if it wants a value, and leaves it otherwise. -/
theorem afterWants_executed {values : Except FormulaError (List T)} :
    cell.afterWants v (.executed c v values :: deeds) =
      match values with
      | .error cause => .poisoned cause
      | .ok _ => cell.afterWants v deeds := by
  unfold afterWants
  cases values with
  | error cause => simp [Notice.want?]
  | ok values => rfl

end Cell

namespace Solver

variable {W T : Type} {s s' : Solver W T} {c : ConstraintId} {v : VarId}

/-- The constraint does not set the variable, whichever method it uses for it. -/
def LeavesAlone (s : Solver W T) (c : ConstraintId) (v : VarId) : Prop :=
  ∀ node, s.constraintAt? c = some node → ∀ method ∈ node.definition.methods, method.output = v →
    method.action.sets = false

/-- This is a matter of what the constraint declares. -/
theorem LeavesAlone.of_definition (h : s.LeavesAlone c v)
    (hsub : ∀ node', s'.constraintAt? c = some node' →
      ∃ node, s.constraintAt? c = some node ∧ node'.definition = node.definition) :
    s'.LeavesAlone c v := by
  intro node' hnode'
  obtain ⟨node, hnode, hd⟩ := hsub node' hnode'
  rw [hd]
  exact h node hnode

/-- No method sets its output. -/
theorem leavesAlone_of_forall (hall : ∀ p ∈ s.constraints.toList, ∀ method ∈ p.2.definition.methods,
    method.action.sets = false) (c : ConstraintId) (v : VarId) : s.LeavesAlone c v :=
  fun node hnode method hmethod _ =>
    hall (c, node) (Arena.mem_toList.2 hnode) method hmethod

/-- Whether a constraint leaves a variable alone is read off its record. -/
theorem LeavesAlone.congr (h : s.LeavesAlone c v)
    (hc : s'.constraintAt? c = s.constraintAt? c) : s'.LeavesAlone c v :=
  h.of_definition fun node' hnode' => ⟨node', hc ▸ hnode', rfl⟩

end Solver

namespace Machine

variable {W T : Type} {m₀ m m' : Machine W T} {tied : Prop} {v : VarId} {c : ConstraintId}
  {new : List (Notice T)}

/-- The deeds done since a machine `m₀` account for what has become of a variable: they tell which
constraints have determined it, and, if every constraint that ran a method into it leaves it alone, they
tell its cell. If methods are run only while they are in force (`tied`), it was determined by all the
constraints that ran a method into it. -/
structure Accounts (tied : Prop) (v : VarId) (m₀ : Machine W T) (new : List (Notice T))
    (m : Machine W T) : Prop where
  /-- The deeds done since. -/
  deeds : m.deeds = new ++ m₀.deeds
  /-- Constraints that leave the variable alone still do. -/
  leaves : ∀ c, m₀.solver.LeavesAlone c v → m.solver.LeavesAlone c v
  /-- What determines the variable did so before or was put in force since. -/
  determines : ∀ c, m.solver.Determines c v → m₀.solver.Determines c v ∨ .enforces c v ∈ new
  /-- What ran a method into the variable determined it before or was put in force since. -/
  runs : tied → ∀ c values, .executed c v values ∈ new →
    m₀.solver.Determines c v ∨ .enforces c v ∈ new
  /-- The cell of the variable, if it was left alone. -/
  cell : (∀ c values, .executed c v values ∈ new → m₀.solver.LeavesAlone c v) →
    m.solver.cellAt v = (m₀.solver.cellAt v).afterWants v new

/-- Where nothing has been done, no deeds account for it. -/
theorem Accounts.refl (m : Machine W T) : m.Accounts tied v [] m where
  deeds := rfl
  leaves _ h := h
  determines _ h := .inl h
  runs _ _ _ h := absurd h List.not_mem_nil
  cell _ := rfl

/-- A step that runs nothing into the variable. -/
theorem Accounts.unrun {done : List (Notice T)} (h : m₀.Accounts tied v new m)
    (hdeeds : m'.deeds = done ++ m.deeds) (hnone : ∀ c values, .executed c v values ∉ done)
    (hleaves : ∀ c, m.solver.LeavesAlone c v → m'.solver.LeavesAlone c v)
    (hdet : ∀ c, m'.solver.Determines c v → m.solver.Determines c v ∨ .enforces c v ∈ done)
    (hcell : m'.solver.cellAt v = m.solver.cellAt v) : m₀.Accounts tied v (done ++ new) m' where
  deeds := by rw [hdeeds, h.deeds, List.append_assoc]
  leaves c hc := hleaves c (h.leaves c hc)
  determines c hc := by
    rcases hdet c hc with hc | hc
    · exact (h.determines c hc).imp_right (List.mem_append_right done)
    · exact .inr (List.mem_append_left new hc)
  runs ht c values hmem := by
    have hold := (List.mem_append.1 hmem).resolve_left (hnone c values)
    exact (h.runs ht c values hold).imp_right (List.mem_append_right done)
  cell hall := by
    rw [hcell, Cell.afterWants_append hnone]
    exact h.cell fun c values hmem => hall c values (List.mem_append_right done hmem)

/-- A step that does no deed. -/
theorem Accounts.noDeed (h : m₀.Accounts tied v new m) (hdeeds : m.NoDeed m')
    (hleaves : ∀ c, m.solver.LeavesAlone c v → m'.solver.LeavesAlone c v)
    (hdet : ∀ c, m'.solver.Determines c v → m.solver.Determines c v)
    (hcell : m'.solver.cellAt v = m.solver.cellAt v) : m₀.Accounts tied v new m' := by
  have hnone : ∀ c values, (.executed c v values : Notice T) ∉ [] := fun _ _ => List.not_mem_nil
  exact h.unrun hdeeds.deeds hnone hleaves (fun c hc => .inl (hdet c hc)) hcell

/-- A method is run. -/
theorem Accounts.executed {node : Constraint W T} {method : Method W T} {w : W}
    {values : Except FormulaError (List T)} (h : m₀.Accounts tied v new m)
    (hnode : m.solver.constraintAt? c = some node) (hmem : method ∈ node.definition.methods)
    (hforce : tied → m.solver.Determines c method.output)
    (hdeeds : m'.deeds = .executed c method.output values :: m.deeds)
    (hsame : ∀ c, m'.solver.constraintAt? c = m.solver.constraintAt? c)
    (hcell : m'.solver.cellAt v = if v = method.output then
      (method.runOn values w).1.store (m.solver.cellAt v) else m.solver.cellAt v) :
    m₀.Accounts tied v (.executed c method.output values :: new) m' where
  deeds := by rw [hdeeds, h.deeds, List.cons_append]
  leaves k hk := (h.leaves k hk).congr (hsame k)
  determines k hk := by
    unfold Solver.Determines at hk
    rw [hsame k] at hk
    exact (h.determines k hk).imp_right (List.mem_cons_of_mem _)
  runs ht k values' hrun := by
    refine Or.imp_right (List.mem_cons_of_mem _) ?_
    rcases List.mem_cons.1 hrun with hrun | hrun
    · obtain ⟨rfl, rfl, -⟩ := Notice.executed.inj hrun
      exact h.determines k (hforce ht)
    · exact h.runs ht k values' hrun
  cell hall := by
    have hold := h.cell fun k values' hrun => hall k values' (List.mem_cons_of_mem _ hrun)
    rw [hcell]
    -- what the deed says about the cell matters only if the method was run into this variable
    by_cases hv : v = method.output
    · subst hv
      -- the constraint that was run is one that leaves the variable alone
      have halone := h.leaves c (hall c values List.mem_cons_self) node hnode method hmem rfl
      rw [if_pos rfl, Method.store_of_not_sets halone, Cell.afterWants_executed, hold]
    · have hnone : ∀ k values', .executed k v values' ∉ [Notice.executed c method.output values] :=
        fun k values' hrun => hv (Notice.executed.inj (List.mem_singleton.1 hrun)).2.1
      rw [if_neg hv, hold]
      exact (Cell.afterWants_append hnone).symm

/-- A constraint enters the graph. -/
theorem Accounts.entered {node : Constraint W T} (ha : m₀.Accounts tied v new m)
    (h : m.solver.WellFormed) (he : m.solver.Entered m'.solver c node) (hdeeds : m.NoDeed m') :
    m₀.Accounts tied v new m' :=
  ha.noDeed hdeeds (fun _ hk => hk.of_definition fun _ hn => he.reset.definition_of hn)
    (fun k hk => (he.determines_iff h k v).1 hk) (he.cellAt v)

/-- A constraint that was stored for a write to another variable neither determines this one nor sets
it. -/
theorem Accounts.shelved {cells : Prop} {u : VarId} {value : T} (hne : u ≠ v)
    (hs : m.solver.Shelved cells m'.solver c (SolveM.writer m.solver u value))
    (hdeeds : m.NoDeed m') : m.Accounts tied v [] m' := by
  refine (refl m).noDeed hdeeds (fun k hk n hn => ?_) (fun k => ?_)
    (Solver.samePaint_of_eq (hs.variableAt v)).2.2
  · obtain ⟨_, rfl⟩ | ⟨_, hn⟩ := hs.found hn
    · intro method hmethod hout
      obtain rfl := List.mem_singleton.1 hmethod
      exact absurd hout hne
    · exact hk n hn
  · rintro ⟨n, hn, hout⟩
    obtain ⟨_, rfl⟩ | ⟨_, hn⟩ := hs.found hn
    · cases hout
    · exact ⟨n, hn, hout⟩

end Machine

namespace SolveM

open Machine (Accounts Lasts)

variable {W T : Type} {m₀ m : Machine W T} {tied : Prop} {cells : Prop} {u v : VarId}
  {c : ConstraintId} {new : List (Notice T)} {fuel : Nat} {value : T}

/-! ## Operations -/

/-- A recalculation is accounted for. -/
theorem ensures_recalculate_accounts (c : ConstraintId) (h : m.solver.WellFormed)
    (ha : m₀.Accounts tied v new m) :
    Ensures (recalculate c) m fun _ m' => ∃ new, m₀.Accounts tied v new m' := by
  by_cases hidle : ∃ o, m.solver.Determines c o
  · obtain ⟨_, node, hnode, hout⟩ := hidle
    obtain ⟨method, hmethod, rfl⟩ := Option.map_eq_some_iff.1 hout
    obtain ⟨i, _, hget⟩ := Option.bind_eq_some_iff.1 hmethod
    have hdet : m.solver.Determines c method.output := ⟨node, hnode, hout⟩
    refine ((recalculate_repaints c m).and ((ensures_recalculate True h.toGrounded hnode).and
      (ensures_recalculate_does h.toGrounded hnode hmethod))).mono ?_
    rintro r m' ⟨hr, ⟨_, _, _, hsame⟩, _, _, hdoes⟩
    have hother : v ≠ method.output → m'.solver.cellAt v = m.solver.cellAt v := fun hv =>
      (Solver.samePaint_of_eq (hsame v fun hk => hv (hk.unique hdet))).2.2
    -- the method is run if the output is constant, and no deed is done otherwise
    split at hdoes
    · obtain ⟨_, hdeeds, hcell⟩ := hdoes
      refine ⟨_, ha.executed (w := m.world) hnode (Definition.mem_of_method? hget) (fun _ => hdet)
        hdeeds hr.constraintAt ?_⟩
      split
      · next hv => rw [hv, hcell]
      · next hv => exact hother hv
    · obtain ⟨hworld, hdeeds, hcell⟩ := hdoes
      refine ⟨new, ha.noDeed ⟨hworld, hdeeds⟩ (fun k hk => hk.congr (hr.constraintAt k))
        (fun k hk => hr.determines.1 hk) ?_⟩
      by_cases hv : v = method.output
      · rw [hv, hcell]
      · exact hother hv
  · exact (ensures_recalculate_of_not_determines fun o ho => hidle ⟨o, ho⟩).mono
      fun _ _ he => ⟨new, he.1 ▸ ha⟩

/-- Whatever an operation does, the deeds account for it. -/
theorem accounts_lasts (tied : Prop) (v : VarId) (m₀ : Machine W T) (mark : Mark) :
    Lasts (fun m => ∃ new, m₀.Accounts tied v new m) False mark where
  onAlike hc hv hdeeds := by
    rintro ⟨new, ha⟩
    refine ⟨new, ha.noDeed hdeeds (fun k hk => hk.congr (hc k)) (fun k hk => ?_)
      (Solver.samePaint_of_eq (hv v)).2.2⟩
    unfold Solver.Determines at hk
    rwa [hc k] at hk
  onRecalculate c h := fun ⟨_, ha⟩ => ensures_recalculate_accounts c h ha
  onInstall := by
    rintro m m' c node i method x h hi hdeeds ⟨new, ha⟩
    -- an installation runs nothing
    have hnone : ∀ k values, (.executed k v values : Notice T) ∉ [.enforces c method.output] := by simp
    refine ⟨_, ha.unrun hdeeds hnone (fun k hk => hk.of_definition fun n hn => ?_) (fun k hk => ?_)
      (hi.cellAt v)⟩
    · obtain ⟨n', hn', hdeclared, _⟩ := hi.constraint_of hn
      exact ⟨n', hn', congrArg Prod.fst hdeclared⟩
    · rw [hi.determines_iff h] at hk
      split at hk
      · next hv => exact .inr (List.mem_singleton.2 (by rw [hk, hv]))
      · exact .inl hk
  onClaim u := fun ⟨new, ha⟩ => ⟨new, ha.noDeed ⟨rfl, rfl⟩ (fun _ hk => hk) (fun _ hk => hk)
    (Solver.cellAt_marked u mark v)⟩
  onDetach := by
    rintro - m m' c node - hd hdeeds ⟨new, ha⟩
    exact ⟨new, ha.noDeed hdeeds (fun _ hk => hk.of_definition fun _ hn => hd.reset.definition_of hn)
      (fun k hk => ((hd.determines_iff k v).1 hk).2) (hd.cellAt v)⟩

/-- Enabling a constraint is accounted for. -/
theorem ensures_enable_accounts (h : m.solver.Sound cells) (ha : m₀.Accounts tied v new m) :
    Ensures (enable fuel c) m fun _ m' =>
      m'.solver.WellFormed ∧ ∃ new, m₀.Accounts tied v new m' :=
  (ensures_enable_lasts (accounts_lasts tied v m₀) h ⟨new, ha⟩ fun _ _ he hdeeds =>
    ⟨new, ha.entered h.toWellFormed he hdeeds⟩).mono fun _ _ hkept => hkept.of_not_lost id

/-- Disabling a constraint is accounted for. -/
theorem ensures_disable_accounts (h : m.solver.WellFormed) (ha : m₀.Accounts tied v new m) :
    Ensures (disable fuel c) m fun _ m' =>
      m'.solver.WellFormed ∧ ∃ new, m₀.Accounts tied v new m' :=
  (ensures_disable_lasts (accounts_lasts tied v m₀) h ⟨new, ha⟩ fun _ _ hd hdeeds =>
    (accounts_lasts tied v m₀ (.ofPass 0)).onDetach id h hd hdeeds ⟨new, ha⟩).mono
      fun _ _ hkept => hkept.of_not_lost id

/-- Writing to another variable. -/
theorem ensures_write_accounts (h : m.solver.Sound cells) (hne : u ≠ v) :
    Ensures (write fuel u value) m fun _ m' => ∃ new, m.Accounts tied v new m' := by
  cases hx : m.solver.variableAt? u with
  | none =>
    unfold write
    rw [ensures_bind, ensures_getVariable, Solver.lookupVariable, hx]
    exact ⟨[], .refl m⟩
  | some x =>
    -- a value is stored at once, or it is written through a constraint that does not concern this
    -- variable
    cases hmode : writesDirectly m.solver x with
    | true =>
      have hdirect : Ensures (write fuel u value) m fun _ m' => m.solver.Rewrites m'.solver ∧
          ∀ w, m'.solver.cellAt w = if w = u then .assigned value else m.solver.cellAt w :=
        ensures_write_direct hx hmode fun _ hr hcells => ⟨hr, hcells⟩
      refine (hdirect.and
        ((ensures_write_of_direct hx hmode).2 (writeDirectly_abstains u value m))).mono ?_
      rintro r m' ⟨⟨hr, hcells⟩, hdeeds⟩
      refine ⟨[], (Machine.Accounts.refl m).noDeed hdeeds (fun k hk => hk.congr (hr.constraintAt k))
        (fun k hk => ?_) ((hcells v).trans (if_neg hne.symm))⟩
      unfold Solver.Determines at hk
      rwa [hr.constraintAt k] at hk
    | false =>
      rw [ensures_write_of_through hx hmode, ensures_bind]
      refine ((ensures_store_writer h (by rw [hx]; rfl)).and (storeConstraint_abstains _ m)).mono ?_
      rintro r m₁ ⟨hs, hdeeds⟩
      cases r with
      | error e =>
        obtain ⟨_, _, rfl⟩ := hs
        exact ⟨[], .refl m₁⟩
      | ok c =>
        refine .pulse fun m₂ halike hfaults hdeeds₂ => ?_
        have hs₂ := hs.alike halike hfaults
        have ha₂ : m.Accounts tied v [] m₂ := .shelved hne hs₂ (hdeeds.trans hdeeds₂)
        refine (ensures_enable_accounts hs₂.sound ha₂).mono ?_
        rintro result m₃ ⟨h₃, new, ha₃⟩
        refine (ensures_disable_accounts h₃ ha₃).mono ?_
        rintro cleanup m₄ ⟨_, new, ha₄⟩ m₅ he hdeeds₅
        -- the constraint is forgotten
        have hsub : ∀ {k n}, m₅.solver.constraintAt? k = some n →
            m₄.solver.constraintAt? k = some n := by
          intro k n hn
          rw [he.constraintAt] at hn
          split at hn
          · cases hn
          · exact hn
        refine ⟨new, ha₄.noDeed hdeeds₅ (fun k hk n hn => hk n (hsub hn)) ?_
          (Solver.samePaint_of_eq (he.variableAt v)).2.2⟩
        rintro k ⟨n, hn, hout⟩
        exact ⟨n, hsub hn, hout⟩

/-- A method of a constraint is run, in force or not. -/
theorem ensures_execute_accounts {i : Nat} (h : m.solver.Grounded) (ha : m₀.Accounts tied v new m)
    (hforce : tied → ∀ node method, m.solver.constraintAt? c = some node →
      node.definition.method? i = some method → m.solver.Determines c method.output) :
    Ensures (execute c i) m fun _ m' => ∃ new, m₀.Accounts tied v new m' := by
  cases hnode : m.solver.constraintAt? c with
  | none =>
    unfold execute
    rw [ensures_bind, ensures_getConstraint, Solver.lookupConstraint, hnode]
    exact ⟨new, ha⟩
  | some node =>
    cases hmethod : node.definition.method? i with
    | none =>
      unfold execute
      rw [ensures_bind]
      refine .getConstraint hnode ?_
      simp only [hmethod]
      exact (ensures_pure _).2 ⟨new, ha⟩
    | some method =>
      refine ((execute_rewrites c i m).and ((ensures_execute_stores h hnode hmethod).and
        (ensures_execute_cellAt h hnode hmethod))).mono ?_
      rintro r m' ⟨hr, ⟨_, _, _, hdeeds⟩, _, _, hcells⟩
      exact ⟨_, ha.executed hnode (Definition.mem_of_method? hmethod)
        (fun ht => hforce ht node method hnode hmethod) hdeeds hr.constraintAt (hcells v)⟩

/-- Executing a plan, whose steps are tied to the methods in force or not. -/
theorem ensures_executePlan_accounts {p : Plan} (h : m.solver.WellFormed)
    (hforce : tied → p.generation = m.solver.generation → ∀ step ∈ p.steps, m.solver.InForce step) :
    Ensures (executePlan p) m fun _ m' => ∃ new, m.Accounts tied v new m' := by
  unfold executePlan
  rw [ensures_bind, ensures_ask]
  simp only
  split
  · rw [ensures_bind, ensures_throw]
    exact ⟨[], .refl m⟩
  · next hgen =>
    rw [ne_eq, not_not] at hgen
    have hsteps : Preserves (fun m' => m.solver.Rewrites m'.solver ∧ ∃ new, m.Accounts tied v new m')
        (p.steps.forM fun step => execute step.constraint step.method) := by
      refine .forM fun step hstep => ?_
      rintro m₁ ⟨hr, new, ha⟩
      refine ((execute_rewrites _ _ m₁).and (ensures_execute_accounts (hr.wellFormed h).toGrounded ha
        fun ht node method hnode hmethod => ?_)).mono fun _ _ ⟨hr', ha'⟩ =>
          ⟨Solver.Rewrites.transitive.trans hr hr', ha'⟩
      -- the method of the step is the one in force
      obtain ⟨n, hn, hi, _⟩ :=
        (Solver.inForce_congr hr.constraintAt).2 (hforce ht hgen step hstep)
      obtain rfl := Option.some.inj (hnode.symm.trans hn)
      exact ⟨node, hnode, Constraint.output?_eq_some_iff.2 ⟨_, method, hi, hmethod, rfl⟩⟩
    rw [ensures_bind]
    refine (hsteps m ⟨Solver.Rewrites.transitive.refl _, [], .refl m⟩).mono ?_
    rintro r m₁ ⟨_, new, ha⟩
    cases r with
    | error e => exact ⟨new, ha⟩
    | ok _ =>
      exact (ensures_count _).2
        ⟨new, ha.noDeed ⟨rfl, rfl⟩ (fun _ hk => hk) (fun _ hk => hk) rfl⟩

end SolveM

/-- The call can change the variable only by running methods into it: it enables or disables a
constraint, executes a plan, or writes to another variable. -/
def Call.Indirect {W T : Type} (v : VarId) : Call W T → Prop
  | .enable _ | .disable _ | .executePlan _ => True
  | .write u _ => u ≠ v
  | _ => False

/-- What such a call does is accounted for; that plans run only methods in force is known of plans of the
solver's own. -/
theorem Call.ensures_accounts {W T : Type} {own : Prop} {m : Machine W T} {call : Call W T} {v : VarId}
    {fuel : Nat} (h : m.solver.Sound own) (hcareful : call.Careful own m.solver)
    (hindirect : call.Indirect v) :
    SolveM.Ensures (call.run fuel) m fun _ m' => ∃ new,
      m.Accounts (∀ p, call = executePlan p → own ∧ m.solver.passes < 2 ^ 64) v new m' := by
  cases call with
  | enable c =>
    exact Call.ensures_done ((SolveM.ensures_enable_accounts h (.refl m)).mono fun _ _ ha => ha.2)
  | disable c =>
    exact Call.ensures_done
      ((SolveM.ensures_disable_accounts h.toWellFormed (.refl m)).mono fun _ _ ha => ha.2)
  | executePlan p =>
    refine Call.ensures_done (SolveM.ensures_executePlan_accounts h.toWellFormed
      fun ht hgen step hstep => ?_)
    obtain ⟨hown, hlt⟩ := ht p rfl
    obtain ⟨node, hnode, hi, hout, _⟩ := hcareful hown hlt hgen step hstep
    exact ⟨node, hnode, hi, hout⟩
  | write u value => exact Call.ensures_done (SolveM.ensures_write_accounts h hindirect)
  | _ => cases hindirect

namespace Run

variable {W T : Type} {own : Prop} {config : Config} {plans : List (Plan × Nat)}
  {m m' : Machine W T} {call : Call W T} {r : Except SolveError (Answer W T)} {v : VarId} {fuel : Nat}

/-- A variable into which only methods are run that keep it or show their inputs to an observer keeps its
cell, unless one of them fails because an input has no value; then the latest such failure has poisoned
it. Which methods are run can be told from which constraints determined the variable before the call or
were put in force in its course. -/
theorem kept_unless_poisoned (h : Run own config plans m)
    (hcall : call.Admissible own plans m.solver) (hindirect : call.Indirect v)
    (hrun : (call.run fuel).exec m = some (r, m')) :
    ∃ new, m'.deeds = new ++ m.deeds ∧
      ((∀ c values, .executed c v values ∈ new → m.solver.LeavesAlone c v) →
        m'.solver.cellAt v = (m.solver.cellAt v).afterWants v new) ∧
      ((∀ p, call = .executePlan p → own ∧ m.solver.passes < 2 ^ 64) →
        ∀ c values, .executed c v values ∈ new →
          m.solver.Determines c v ∨ .enforces c v ∈ new) := by
  obtain ⟨hsound, htracked⟩ := h.sound
  obtain ⟨new, ha⟩ :=
    Call.ensures_accounts hsound (careful htracked hcall) hindirect r m' hrun
  exact ⟨new, ha.deeds, ha.cell, ha.runs⟩

/-- A variable with a value is the output of two observers, one of a variable with a value and one of a
variable without. An observer tells what it is shown to the world. -/
def observedInto : List (Call (List (List Nat)) Nat) :=
  [.newVariables [5, 2], .newUnassigned,
    .insert (.ofMethod .strong none (.observe ⟨0, 0⟩ [⟨1, 0⟩] fun values w => values :: w)
      ⟨by decide, by decide⟩),
    .insert (.ofMethod .strong none (.observe ⟨0, 0⟩ [⟨2, 0⟩] fun values w => values :: w)
      ⟨by decide, by decide⟩)]

/-- When the first observer is enabled, it is shown the value, and its output keeps its own. -/
theorem kept_unless_poisoned_observedInto : ∃ (m m' : Machine (List (List Nat)) Nat)
    (new : List (Notice Nat)), Call.runAll 9 observedInto ⟨.empty {}, [], []⟩ = some m ∧
    ((Call.enable ⟨0, 0⟩).run 9).exec m = some (.ok .done, m') ∧ m'.deeds = new ++ m.deeds ∧
    (∀ c, m.solver.LeavesAlone c ⟨0, 0⟩) ∧
    m'.solver.cellAt ⟨0, 0⟩ = (Cell.assigned 5).afterWants ⟨0, 0⟩ new ∧
    m'.solver.cellAt ⟨0, 0⟩ = .assigned 5 ∧ m'.world = [[2]] := by
  have hany : (Call.runAll 9 observedInto ⟨.empty {}, [], []⟩).any (fun m =>
      (∀ p ∈ m.solver.constraints.toList, ∀ method ∈ p.2.definition.methods,
        method.action.sets = false) ∧ m.solver.cellAt ⟨0, 0⟩ = .assigned 5 ∧
      (((Call.enable ⟨0, 0⟩).run 9).exec m).any fun p => Call.isDone p.1 ∧
        p.2.solver.cellAt ⟨0, 0⟩ = .assigned 5 ∧ p.2.world = [[2]]) = true := by
    decide +kernel
  simp only [Option.any_eq_true, decide_eq_true_eq] at hany
  obtain ⟨m, hm, hall, hcell, ⟨r, m'⟩, hexec, hr, hcell', hworld⟩ := hany
  obtain rfl := Call.eq_done_of_isDone hr
  have hstart : Run True {} [] (⟨.empty {}, [], []⟩ : Machine (List (List Nat)) Nat) := .start []
  obtain ⟨plans, h⟩ := runAll hstart (by decide) hm
  have halone := Solver.leavesAlone_of_forall hall
  have hindirect : (Call.enable ⟨0, 0⟩ : Call (List (List Nat)) Nat).Indirect ⟨0, 0⟩ := trivial
  obtain ⟨new, hdeeds, hkept, _⟩ :=
    kept_unless_poisoned h (Call.admissible_of_isPlain rfl) hindirect hexec
  exact ⟨m, m', new, hm, hexec, hdeeds, fun c => halone c _,
    hcell ▸ hkept fun c _ _ => halone c _, hcell', hworld⟩

/-- When the second observer is enabled, it is shown nothing, and its output loses the value. -/
theorem observer_poisons_output : ∃ m m' : Machine (List (List Nat)) Nat,
    Call.runAll 9 observedInto ⟨.empty {}, [], []⟩ = some m ∧ (∃ plans, Run True {} plans m) ∧
    ((Call.enable ⟨1, 0⟩).run 9).exec m = some (.ok .done, m') ∧
    (∀ c, m.solver.LeavesAlone c ⟨0, 0⟩ ∧ m'.solver.LeavesAlone c ⟨0, 0⟩) ∧
    m.solver.cellAt ⟨0, 0⟩ = .assigned 5 ∧
    m'.solver.cellAt ⟨0, 0⟩ = .poisoned (.unassignedInput ⟨2, 0⟩) ∧
    m'.solver.cellAt ⟨0, 0⟩ ≠ m.solver.cellAt ⟨0, 0⟩ := by
  have hany : (Call.runAll 9 observedInto ⟨.empty {}, [], []⟩).any (fun m =>
      (∀ p ∈ m.solver.constraints.toList, ∀ method ∈ p.2.definition.methods,
        method.action.sets = false) ∧ m.solver.cellAt ⟨0, 0⟩ = .assigned 5 ∧
      (((Call.enable ⟨1, 0⟩).run 9).exec m).any fun p => Call.isDone p.1 ∧
        (∀ q ∈ p.2.solver.constraints.toList, ∀ method ∈ q.2.definition.methods,
          method.action.sets = false) ∧
        p.2.solver.cellAt ⟨0, 0⟩ = .poisoned (.unassignedInput ⟨2, 0⟩)) = true := by
    decide +kernel
  simp only [Option.any_eq_true, decide_eq_true_eq] at hany
  obtain ⟨m, hm, hall, hcell, ⟨r, m'⟩, hexec, hr, hall', hcell'⟩ := hany
  obtain rfl := Call.eq_done_of_isDone hr
  have hstart : Run True {} [] (⟨.empty {}, [], []⟩ : Machine (List (List Nat)) Nat) := .start []
  refine ⟨m, m', hm, runAll hstart (by decide) hm, hexec, fun c => ⟨?_, ?_⟩, hcell, hcell', ?_⟩
  · exact Solver.leavesAlone_of_forall hall c _
  · exact Solver.leavesAlone_of_forall hall' c _
  · rw [hcell, hcell']
    exact nofun

end Run

end DeltaBlue
