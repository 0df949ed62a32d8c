import DeltaBlue.Proofs.Deeds
import DeltaBlue.Proofs.Drafting
import DeltaBlue.Proofs.Orderly
import DeltaBlue.Proofs.Values

/-!
# Observing

To observe variables is to make a hidden variable, the sink, and to enable a constraint whose only
method shows the variables to the observer and has the sink as its output. The sink is new, so it is
unclaimed, held at the weakest strength and determined by nothing, and no other constraint mentions it.
So the method is put in force whatever the graph is like, displaces nothing, and nothing is downstream
of it: with three steps of fuel, observing does what the straight program `tap` does
(`observe_amounts`), in which the observer's constraint is the only one that is recalculated.
-/

namespace DeltaBlue

/-- No pass draws the mark of what is unclaimed. -/
theorem Mark.ofPass_succ_ne_none (n : Nat) : Mark.ofPass (n + 1) ≠ .none := by
  rw [ofPass_succ, next]
  split
  · decide
  · next h => exact fun he => h (congrArg Mark.value he)

/-- The definition of an observer, if its inputs are distinct and do not contain the sink. -/
theorem Draft.define_observer {W T : Type} (strength : Strength) (text : String) (sink : VarId)
    (inputs : List VarId) (f : Observe W T) :
    (inputs.Nodup ∧ sink ∉ inputs ∧ ∃ d, define strength [.label text, .observer sink inputs f] = .ok d ∧
      d.methods = [.observe sink inputs f] ∧ d.strength = strength ∧ d.volatile = false) ∨
    ¬ (inputs.Nodup ∧ sink ∉ inputs) ∧
      ∃ e, define strength [.label text, .observer sink inputs f] = .error e := by
  -- the label comes first and has no fault
  have hstart : define strength [.label text, .observer sink inputs f] = (do
      (← ({ (empty strength : Draft W T) with label := some text }.registerAll
        [.observer sink inputs f])).build) := rfl
  generalize hd : ({ (empty strength : Draft W T) with label := some text }) = draft at hstart
  have hmethods : draft.methods = [] := hd ▸ rfl
  have hheads : draft.strength = strength ∧ draft.volatile = false := hd ▸ ⟨rfl, rfl⟩
  have hregister : draft.registerAll [.observer sink inputs f] =
      draft.push (.observe sink inputs f) := by
    rw [registerAll, register, offer]
    cases draft.push (.observe sink inputs f) <;> rfl
  have hfault : draft.fault? (.observe sink inputs f) = none ↔ inputs.Nodup ∧ sink ∉ inputs := by
    rw [fault?_eq_none_iff, hmethods]
    exact ⟨fun h => ⟨h.2.inputs_nodup, h.2.output_not_mem⟩, fun h => ⟨List.not_mem_nil, h.1, h.2⟩⟩
  rw [hstart, hregister]
  cases hnone : draft.fault? (.observe sink inputs f) with
  | some e =>
    refine .inr ⟨fun h => ?_, e, by rw [push_eq_error hnone]; rfl⟩
    rw [hfault.2 h] at hnone
    cases hnone
  | none =>
    obtain ⟨draft', hpush⟩ := exists_push hnone
    have hlast : draft'.methods = [.observe sink inputs f] := by
      rw [methods_of_push hpush, hmethods]
      rfl
    obtain ⟨d, hbuild⟩ : ∃ d, draft'.build = .ok d := by
      refine exists_build (by rw [hlast]; exact List.cons_ne_nil _ _) fun m hm n hn v hv => ?_
      rw [hlast] at hm hn
      rwa [List.mem_singleton.1 hm, ← List.mem_singleton.1 hn]
    obtain ⟨hs, hv⟩ := heads_of_push hpush
    obtain ⟨hs', hv'⟩ := heads_of_build hbuild
    refine .inl ⟨(hfault.1 hnone).1, (hfault.1 hnone).2, d, by rw [hpush]; exact hbuild,
      (methods_of_build hbuild).trans hlast, ?_, ?_⟩
    · rw [hs', hs, hheads.1]
    · rw [hv', hv, hheads.2]

/-- The observer `c` of variables was made, with a sink, and nothing else was disturbed. -/
structure Observed {W T : Type} (m m' : Machine W T) (inputs : List VarId) (f : Observe W T)
    (c : ConstraintId) (sink : VarId) : Prop where
  /-- The sink is a new variable. -/
  sink_new : m.solver.variableAt? sink = none ∧ (m'.solver.variableAt? sink).isSome
  /-- The observer is a new constraint. -/
  constraint_new : m.solver.constraintAt? c = none
  /-- It is enabled, and the method that shows the variables to it is in force. -/
  enforcing : ∃ node, m'.solver.constraintAt? c = some node ∧ node.enabled = true ∧
    node.sink = some sink ∧ node.enforcingMethod? = some (.observe sink inputs f)
  /-- The other variables stand as before. -/
  standing : ∀ v, v ≠ sink → (m'.solver.variableAt? v).map Variable.standing =
    (m.solver.variableAt? v).map Variable.standing
  /-- The other constraints are as before. -/
  constraintAt : ∀ k, k ≠ c → m'.solver.constraintAt? k = m.solver.constraintAt? k
  /-- If the variables are constant and have values, these were shown to the observer once. -/
  shown : ∀ values : List T, (∀ v ∈ inputs, m.solver.constantAt v = true) →
    inputs.map m.solver.cellAt = values.map .assigned → m'.world = f values m.world
  /-- Otherwise the observer was not called. -/
  silent : ¬ ((∀ v ∈ inputs, m.solver.constantAt v = true) ∧
    ∃ values : List T, inputs.map m.solver.cellAt = values.map .assigned) → m'.world = m.world

namespace SolveM

variable {W T α β : Type} {m : Machine W T} {k : Nat}

/-! ## Operations that need little fuel -/

/-- With `k` steps or more the operation does what a plain one does, which uses no fuel; with less it
does the same or does not finish. -/
def Amounts (k : Nat) (op : Nat → SolveM W T α) (plain : SolveM W T α) (m : Machine W T) : Prop :=
  ∀ fuel, exec (op fuel) m = exec plain m ∨ fuel < k ∧ exec (op fuel) m = none

namespace Amounts

/-- A plain operation needs no fuel. -/
theorem refl (op : SolveM W T α) : Amounts k (fun _ => op) op m := fun _ => .inl rfl

/-- An operation that does the same with every amount of fuel needs as little. -/
theorem congr {op op' : Nat → SolveM W T α} {plain : SolveM W T α}
    (heq : ∀ fuel, exec (op fuel) m = exec (op' fuel) m) (h : Amounts k op' plain m) :
    Amounts k op plain m := by
  intro fuel
  rw [heq]
  exact h fuel

/-- Of two operations in sequence each may use the whole fuel. -/
theorem bind {op : Nat → SolveM W T α} {plain : SolveM W T α} {f : Nat → α → SolveM W T β}
    {g : α → SolveM W T β} (h : Amounts k op plain m)
    (hf : ∀ a m', exec plain m = some (.ok a, m') → Amounts k (fun fuel => f fuel a) (g a) m') :
    Amounts k (fun fuel => op fuel >>= f fuel) (plain >>= g) m := by
  intro fuel
  rw [exec_bind, exec_bind]
  rcases h fuel with hsame | ⟨hlt, hnone⟩
  · rw [hsame]
    cases hplain : exec plain m with
    | none => exact .inl rfl
    | some p =>
      obtain ⟨r, m'⟩ := p
      cases r with
      | error e => exact .inl rfl
      | ok a => exact hf a m' hplain fuel
  · rw [hnone]
    exact .inr ⟨hlt, rfl⟩

/-- An operation that has one result. -/
theorem bind_return {γ : Type} {op : Nat → SolveM W T β} {plain : SolveM W T α} {b : β}
    {f : Nat → β → SolveM W T γ} {g : SolveM W T γ} (h : Amounts k op (do let _ ← plain; return b) m)
    (hf : ∀ m', Amounts k (fun fuel => f fuel b) g m') :
    Amounts k (fun fuel => op fuel >>= f fuel) (plain >>= fun _ => g) m := by
  have hplain : (plain >>= fun _ => g) = (do let _ ← plain; return b) >>= fun _ => g := by
    rw [bind_assoc]
    simp only [pure_bind]
  rw [hplain]
  refine h.bind fun b' m' hrun => ?_
  obtain ⟨_, m₁, -, hb⟩ := exec_bind_eq_ok.1 hrun
  obtain rfl := Except.ok.inj (Prod.mk.inj (Option.some.inj hb)).1
  exact hf m'

/-- An attempt that succeeds. -/
theorem attempt_bind {op : Nat → SolveM W T α} {plain : SolveM W T α}
    {f : Nat → Except SolveError α → SolveM W T β} {g : α → SolveM W T β}
    (h : Amounts k op plain m) (hok : Ensures plain m fun r _ => ∃ a, r = .ok a)
    (hf : ∀ a m', exec plain m = some (.ok a, m') → Amounts k (fun fuel => f fuel (.ok a)) (g a) m') :
    Amounts k (fun fuel => attempt (op fuel) >>= f fuel) (plain >>= g) m := by
  intro fuel
  rw [exec_bind, exec_bind, exec_attempt]
  rcases h fuel with hsame | ⟨hlt, hnone⟩
  · rw [hsame]
    cases hplain : exec plain m with
    | none => exact .inl rfl
    | some p =>
      obtain ⟨r, m'⟩ := p
      obtain ⟨a, rfl⟩ := hok r m' hplain
      exact hf a m' hplain fuel
  · rw [hnone]
    exact .inr ⟨hlt, rfl⟩

/-- A step is taken before. -/
theorem succ {op : Nat → SolveM W T α} {plain : SolveM W T α}
    (hzero : exec (op 0) m = none) (h : Amounts k (fun fuel => op (fuel + 1)) plain m) :
    Amounts (k + 1) op plain m
  | 0 => .inr ⟨Nat.succ_pos k, hzero⟩
  | fuel + 1 => (h fuel).imp_right fun ⟨hlt, hnone⟩ => ⟨Nat.succ_lt_succ hlt, hnone⟩

/-- A step was taken before. -/
theorem pred {op : Nat → SolveM W T α} {plain : SolveM W T α} (h : Amounts (k + 1) op plain m) :
    Amounts k (fun fuel => op (fuel + 1)) plain m :=
  fun fuel => (h (fuel + 1)).imp_right fun ⟨hlt, hnone⟩ => ⟨Nat.lt_of_succ_lt_succ hlt, hnone⟩

/-- What the plain operation ensures is ensured with every amount of fuel. -/
theorem ensures {op : Nat → SolveM W T α} {plain : SolveM W T α}
    {Q : Except SolveError α → Machine W T → Prop} (h : Amounts k op plain m)
    (hQ : Ensures plain m Q) (fuel : Nat) : Ensures (op fuel) m Q := by
  intro r m' hr
  rcases h fuel with hsame | ⟨_, hnone⟩
  · exact hQ r m' (hsame ▸ hr)
  · rw [hnone] at hr
    cases hr

/-- Since the plain operation returns, so does the other. -/
theorem returns {op : Nat → SolveM W T α} {plain : SolveM W T α}
    {Q : Except SolveError α → Machine W T → Prop} (h : Amounts k op plain m) (htotal : Total plain)
    (hQ : Ensures plain m Q) : Returns op m Q := by
  obtain ⟨⟨r, m'⟩, hr⟩ := htotal m
  refine ⟨r, m', hQ r m' hr, k, fun fuel hle => ?_⟩
  exact ((h fuel).resolve_right fun hlt => Nat.not_lt_of_le hle hlt.1).trans hr

end Amounts

/-! ## A constraint that nothing depends on -/

/-- The constraint is to be added. It has one method, and the output of the method is unclaimed, held
more weakly than the constraint insists, and determined by nothing; no other constraint is on it. -/
structure Solitary (s : Solver W T) (c : ConstraintId) (node : Constraint W T) (method : Method W T)
    (x : Variable T) : Prop where
  /-- The constraint is part of the graph and idle. -/
  idle : s.constraintAt? c = some node ∧ node.enabled = true ∧ node.enforcing = none
  /-- It has one method. -/
  methods : node.definition.methods = [method]
  /-- The output of the method is held more weakly than the constraint insists. -/
  output : s.variableAt? method.output = some x ∧ x.walkStrength < node.definition.strength
  /-- No pass has claimed the output. -/
  mark : x.mark = .none
  /-- No constraint determines the output. -/
  determinedBy : x.determinedBy = none
  /-- No other constraint is on the output. -/
  incident : ∀ k ∈ x.incident, k = c

/-- Install a method, recalculate its output alone, and claim it. -/
def hook (mark : Mark) (c : ConstraintId) : SolveM W T (Option ConstraintId) := do
  match ← install mark c with
  | none => return none
  | some (output, displaced) =>
    recalculate c
    changeVariable output fun x => { x with mark := mark }
    return displaced

section

variable {s : Solver W T} {c : ConstraintId} {node : Constraint W T} {method : Method W T}
  {x : Variable T} {mark : Mark}

/-- The only method is put in force and displaces nothing. -/
theorem Solitary.ensures_install (h : m.solver.WellFormed) (hs : Solitary m.solver c node method x)
    (hmark : mark ≠ .none) :
    Ensures (install mark c) m fun r m' => r = .ok (some (method.output, none)) ∧
      ∃ i, m.solver.Installed m'.solver mark c node i method x := by
  obtain ⟨hnode, hen, hidle⟩ := hs.idle
  refine (SolveM.ensures_install h hnode hen hidle).mono ?_
  rintro r m' (⟨_, _, hheld⟩ | ⟨i, y, method', hi, rfl, _⟩)
  · -- the output is held more weakly than the constraint insists
    refine absurd (hheld method ?_ x hs.output.1 ?_) (Nat.not_le_of_lt hs.output.2)
    · rw [hs.methods]
      exact List.mem_singleton_self method
    · rw [hs.mark]
      exact hmark.symm
  · have hmem := Definition.mem_of_method? hi.method
    rw [hs.methods, List.mem_singleton] at hmem
    subst hmem
    obtain rfl := Option.some.inj (hs.output.1.symm.trans hi.output.1)
    exact ⟨by rw [hs.determinedBy], i, hi⟩

/-- Once the constraint has its method in force, the walk recalculates it and comes to its end. -/
theorem sweep_amounts {y : Variable T} (h : m.solver.WellFormed)
    (hnode : m.solver.constraintAt? c = some node) (hmethod : node.enforcingMethod? = some method)
    (hy : m.solver.variableAt? method.output = some y) (hmark : y.mark ≠ mark)
    (hincident : ∀ k ∈ y.incident, k = c) :
    Amounts 2 (fun fuel => sweep mark fuel (.singleton c)) (recalculate c >>= fun _ => pure none) m := by
  have hout : node.output? = some method.output := by
    rw [Constraint.output?, hmethod]
    rfl
  have hstep : ∀ fuel, exec (sweep mark (fuel + 1) (.singleton c)) m =
      exec (recalculate c >>= fun _ => do
        let y ← getVariable method.output
        sweep mark fuel (OrderedSet.empty.insertAll (← ask (·.consumers y)))) m := by
    intro fuel
    have hpop : (OrderedSet.singleton c).pop? = some (c, .empty) := rfl
    rw [sweep, hpop]
    simp only
    rw [exec_bind, getConstraint, exec_query, Solver.lookupConstraint_eq_ok hnode]
    simp only [hout]
    rw [exec_bind, getVariable, exec_query, Solver.lookupVariable_eq_ok hy]
    simp only [if_neg hmark]
  refine .succ rfl (.congr hstep (.bind (.refl _) fun _ m₁ hrun => ?_))
  -- the only constraint on the output is the one that determines it
  obtain ⟨-, hw, -, -⟩ := ensures_recalculate True h.toGrounded hnode _ m₁ hrun
  have hdet : m₁.solver.Determines c method.output :=
    hw.toRepaints.determines.2 ⟨node, hnode, hout⟩
  obtain ⟨y₁, hy₁⟩ := Option.isSome_iff_exists.1 ((hw.toRepaints.live _).trans (by rw [hy]; rfl))
  obtain ⟨y', hy', hinc, -, -⟩ := hw.toRepaints.variable_of hy₁
  obtain rfl := Option.some.inj (hy.symm.trans hy')
  -- so nothing reads the output, and the walk has no more to visit
  have hnone : m₁.solver.consumers y₁ = [] := by
    refine List.filter_eq_nil_iff.2 fun k hk => ?_
    rw [hincident k (hinc ▸ hk), ((h.repaints hw.toRepaints).determined hy₁ c).2 hdet]
    simp
  have hrest : ∀ fuel, exec (do
      let y ← getVariable method.output
      sweep mark fuel (OrderedSet.empty.insertAll (← ask (·.consumers y)))) m₁ =
        exec (sweep mark fuel .empty) m₁ := by
    intro fuel
    rw [exec_bind, getVariable, exec_query, Solver.lookupVariable_eq_ok hy₁]
    simp only
    rw [exec_bind, exec_ask, hnone]
    rfl
  exact .congr hrest (.succ rfl (.refl _))

/-- To enforce the constraint is to hook it. -/
theorem Solitary.enforce_amounts (h : m.solver.WellFormed) (hs : Solitary m.solver c node method x)
    (hmark : mark ≠ .none) (remove : Nat → ConstraintId → SolveM W T Unit) :
    Amounts 2 (fun fuel => enforce (remove fuel) fuel mark c) (hook mark c) m := by
  refine .bind (.refl _) fun installed m₁ hrun => ?_
  obtain ⟨hr, i, hi⟩ := hs.ensures_install h hmark _ m₁ hrun
  obtain rfl := Except.ok.inj hr
  have hy := hi.variableAt method.output
  rw [hs.output.1, Option.map_some] at hy
  have hsweep : Amounts 2 (fun fuel => sweep mark fuel (.singleton c))
      (recalculate c >>= fun _ => pure none) m₁ :=
    sweep_amounts (h.installed hi) ((hi.constraintAt c).trans (if_pos rfl)) hi.method hy
      (by simp [hs.mark, hmark.symm]) hs.incident
  exact hsweep.bind_return fun _ => .refl _

/-- The constraint has its only method in force. Nothing else is changed but the marks of other
variables, and the world only by running the method, if the output is constant. -/
structure Hooked (m m' : Machine W T) (c : ConstraintId) (node : Constraint W T) (method : Method W T) :
    Prop where
  /-- The constraint has the method in force. -/
  enforces : ∃ i, node.definition.method? i = some method ∧
    m'.solver.constraintAt? c = some { node with enforcing := some i }
  /-- The other constraints are the same. -/
  constraintAt : ∀ k, k ≠ c → m'.solver.constraintAt? k = m.solver.constraintAt? k
  /-- The output exists. -/
  live : (m'.solver.variableAt? method.output).isSome
  /-- The other variables stand as before. -/
  standing : ∀ v, v ≠ method.output → (m'.solver.variableAt? v).map Variable.standing =
    (m.solver.variableAt? v).map Variable.standing
  /-- The method is run only if the output is constant. -/
  world : m'.world = if node.definition.constantFrom m.solver.constantAt method.output then
    (method.runOn (valuesFrom m.solver.cellAt method.inputs) m.world).2 else m.world

/-- Hooking the constraint puts its method in force and disturbs nothing else. -/
theorem Solitary.ensures_hook (h : m.solver.WellFormed) (hs : Solitary m.solver c node method x)
    (hmark : mark ≠ .none) :
    Ensures (hook mark c) m fun r m' => r = .ok none ∧ Hooked m m' c node method := by
  unfold hook
  rw [ensures_bind]
  refine ((hs.ensures_install h hmark).and (install_does mark c m)).mono ?_
  rintro r m₁ ⟨⟨rfl, i, hi⟩, hworld₁, -⟩
  simp only
  have hwf := h.installed hi
  have hnode₁ := (hi.constraintAt c).trans (if_pos rfl)
  -- installing changes neither flags nor cells
  have hpaint : ∀ v, m.solver.SamePaint m₁.solver v := fun v =>
    Solver.samePaint_of_map (hi.variableAt v) fun _ => ⟨rfl, rfl, rfl⟩
  have hconstant : m₁.solver.constantAt = m.solver.constantAt := funext fun v => (hpaint v).2.1
  have hcell : m₁.solver.cellAt = m.solver.cellAt := funext fun v => (hpaint v).2.2
  rw [ensures_bind]
  refine ((ensures_recalculate True hwf.toGrounded hnode₁).and
    (ensures_recalculate_does hwf.toGrounded hnode₁ hi.method)).mono ?_
  rintro _ m₂ ⟨⟨rfl, hw, -, hsame⟩, -, -, hrun⟩
  rw [hconstant, hcell] at hrun
  simp only
  obtain ⟨y, hy⟩ : ∃ y, m₂.solver.variableAt? method.output = some y := by
    refine Option.isSome_iff_exists.1 ((hw.toRepaints.live _).trans ?_)
    rw [hi.variableAt, hs.output.1]
    rfl
  rw [ensures_bind]
  refine .changeVariable hy ((ensures_pure _).2 ⟨rfl, ?_, fun k hk => ?_, ?_, fun v hv => ?_, ?_⟩)
  · exact ⟨i, hi.method, (hw.toRepaints.constraintAt c).trans hnode₁⟩
  · change m₂.solver.constraintAt? k = _
    rw [hw.toRepaints.constraintAt, hi.constraintAt, if_neg hk, hs.determinedBy, if_neg nofun]
  · rw [Solver.variableAt?_modifyVariable, if_pos rfl, hy]
    rfl
  · have hother : ¬ m₁.solver.Determines c v := fun hc => hv (hc.unique hi.determines)
    rw [Solver.variableAt?_modifyVariable, if_neg hv, hsame v hother, hi.variableAt, Option.map_map]
    congr 1
    funext z
    simp only [Function.comp_apply, Variable.standing, if_neg hv]
  · change m₂.world = _
    rw [← hworld₁]
    split at hrun
    · next htrue => rw [if_pos htrue]; exact hrun.1
    · next hfalse => rw [if_neg hfalse]; exact hrun.1

end

/-- Hook a constraint in a new pass. -/
def hookAnew (c : ConstraintId) : SolveM W T Unit := do
  let _ ← hook (← nextMark) c

section

variable {c : ConstraintId} {node : Constraint W T} {method : Method W T} {x : Variable T}

/-- A new pass claims nothing and changes nothing of the graph. -/
theorem Solitary.ensures_nextMark (h : m.solver.WellFormed)
    (hs : Solitary m.solver c node method x) :
    Ensures nextMark m fun r m₁ => ∃ mark, r = .ok mark ∧ mark ≠ .none ∧ m₁.solver.WellFormed ∧
      Solitary m₁.solver c node method x ∧
      ∀ m', Hooked m₁ m' c node method → Hooked m m' c node method := by
  unfold nextMark
  rw [ensures_bind, ensures_update]
  refine (ensures_ask _).2 ⟨_, rfl, Mark.ofPass_succ_ne_none _, h.of_links (fun _ => rfl) fun _ => rfl,
    ⟨hs.idle, hs.methods, hs.output, hs.mark, hs.determinedBy, hs.incident⟩, fun m' hh => ?_⟩
  exact ⟨hh.enforces, hh.constraintAt, hh.live, hh.standing, hh.world⟩

/-- The same in a pass of its own. -/
theorem Solitary.ensures_hookAnew (h : m.solver.WellFormed)
    (hs : Solitary m.solver c node method x) :
    Ensures (hookAnew c) m fun r m' => r = .ok () ∧ Hooked m m' c node method := by
  unfold hookAnew
  rw [ensures_bind]
  refine (hs.ensures_nextMark h).mono ?_
  rintro _ m₁ ⟨mark, rfl, hmark, h₁, hs₁, hback⟩
  simp only
  rw [ensures_bind]
  refine (hs₁.ensures_hook h₁ hmark).mono ?_
  rintro _ m' ⟨rfl, hh⟩
  exact (ensures_pure _).2 ⟨rfl, hback m' hh⟩

/-- To displace with the constraint is to hook it, since nothing is displaced. -/
theorem Solitary.displace_amounts {mark : Mark} (h : m.solver.WellFormed)
    (hs : Solitary m.solver c node method x) (hmark : mark ≠ .none)
    (remove : Nat → ConstraintId → SolveM W T Unit) :
    Amounts 2 (fun fuel => displace (remove fuel) fuel mark fuel c)
      (do let _ ← hook mark c) m := by
  have hstep : ∀ fuel, exec (displace (remove (fuel + 1)) (fuel + 1) mark (fuel + 1) c) m =
      exec (enforce (remove (fuel + 1)) (fuel + 1) mark c >>= fun displaced => displaced.elim
        (pure ()) (displace (remove (fuel + 1)) (fuel + 1) mark fuel)) m := by
    intro fuel
    conv_lhs => unfold displace
    congr 2
    funext displaced
    cases displaced <;> rfl
  refine .succ rfl (.congr hstep ?_)
  refine ((hs.enforce_amounts h hmark remove).pred).bind fun displaced m₁ hrun => ?_
  obtain ⟨hr, -⟩ := hs.ensures_hook h hmark _ m₁ hrun
  obtain rfl := Except.ok.inj hr
  exact .refl _

/-- To add the constraint is to hook it in a new pass. -/
theorem Solitary.add_amounts (h : m.solver.WellFormed) (hs : Solitary m.solver c node method x) :
    Amounts 3 (fun fuel => add fuel c) (hookAnew c) m := by
  have hstep : ∀ fuel, exec (add (fuel + 1) c) m = exec (nextMark >>= fun mark =>
      displace (withdraw (add fuel) fuel) fuel mark fuel c) m := fun _ => rfl
  refine .succ rfl (.congr hstep ?_)
  refine .bind (.refl nextMark) fun mark m₁ hrun => ?_
  obtain ⟨_, hok, hmark, h₁, hs₁, -⟩ := hs.ensures_nextMark h _ m₁ hrun
  obtain rfl := Except.ok.inj hok
  exact hs₁.displace_amounts h₁ hmark fun fuel => withdraw (add fuel) fuel

/-- To settle the constraint is to hook it in a new pass. -/
theorem Solitary.settle_amounts (h : m.solver.WellFormed)
    (hs : Solitary m.solver c node method x) :
    Amounts 3 (fun fuel => settle fuel c) (hookAnew c) m := by
  rw [← bind_pure_unit (x := hookAnew c)]
  refine (hs.add_amounts h).attempt_bind ((hs.ensures_hookAnew h).mono fun r _ hr => ?_)
    fun _ _ _ => .refl _
  exact ⟨(), hr.1⟩

end

/-! ## Observers -/

/-- Enter a constraint into the graph and hook it. -/
def hookUp (c : ConstraintId) : SolveM W T ConstraintId := do
  enter c
  hookAnew c
  return c

/-- What observing comes to. -/
def tap (inputs : List VarId) (f : Observe W T) : SolveM W T ConstraintId := do
  let sink ← newUnassigned
  match ← attempt (insertObserver sink inputs f) with
  | .ok c => hookUp c
  | .error e =>
    update fun s => { s with vars := s.vars.erase sink }
    throw e

/-- Entering a constraint and hooking it always returns. -/
theorem total_hookUp (c : ConstraintId) : Total (W := W) (T := T) (hookUp c) := by
  refine (total_enter c).bind fun _ => .bind ?_ fun _ => .pure _
  refine total_nextMark.bind fun mark => .bind ?_ fun _ => .pure _
  refine (total_install mark c).bind fun installed => ?_
  cases installed with
  | none => exact .pure _
  | some p =>
    exact (total_recalculate c).bind fun _ => (Total.changeVariable _ _).bind fun _ => .pure _

/-- The program always returns. -/
theorem total_tap (inputs : List VarId) (f : Observe W T) : Total (tap inputs f) := by
  refine (total_storeVariable _).bind fun sink => ?_
  refine (total_insertObserver sink inputs f).attempt.bind fun result => ?_
  cases result with
  | ok c => exact total_hookUp c
  | error e => exact (Total.update _).bind fun _ => .throw e

/-- The constraint is not part of the graph. It has one method, whose output is as it was made, and
insists on more than the weakest strength. -/
structure Unhooked (s : Solver W T) (c : ConstraintId) (node : Constraint W T) (method : Method W T)
    (cell : Cell T) : Prop where
  /-- The constraint is not part of the graph. -/
  outside : s.constraintAt? c = some node ∧ node.enabled = false
  /-- It has one method. -/
  methods : node.definition.methods = [method]
  /-- The output of the method is as it was made. -/
  output : s.variableAt? method.output = some { cell := cell }
  /-- The constraint insists on more than the weakest strength. -/
  strength : .weakest < node.definition.strength

section

variable {cells : Prop} {c : ConstraintId} {node : Constraint W T} {method : Method W T} {cell : Cell T}

/-- When the constraint has entered the graph, it is alone on its output. -/
theorem Unhooked.solitary (hs : Unhooked m.solver c node method cell) {m' : Machine W T}
    (he : m.solver.Entered m'.solver c node) :
    Solitary m'.solver c { node with enabled := true, enforcing := none } method
      { cell := cell, incident := OrderedSet.empty.insert c } := by
  have hmem : method.output ∈ node.definition.vars :=
    Definition.output_mem_vars (hs.methods ▸ List.mem_singleton_self method)
  refine ⟨⟨(he.constraintAt c).trans (if_pos rfl), rfl, rfl⟩, hs.methods, ⟨?_, hs.strength⟩, rfl, rfl,
    fun k hk => ?_⟩
  · rw [he.variableAt, hs.output, Option.map_some, if_pos hmem]
  · exact (OrderedSet.mem_insert.1 hk).resolve_left List.not_mem_nil

/-- The constraint enters the graph and is hooked. What the method makes of the world depends on the
cells and on the constancy of the variables as they were before. -/
theorem Unhooked.ensures_enter_hookAnew (h : m.solver.Sound cells)
    (hs : Unhooked m.solver c node method cell) :
    Ensures (do enter c; hookAnew c) m fun r m' => r = .ok () ∧
      Hooked m m' c { node with enabled := true, enforcing := none } method := by
  rw [ensures_bind]
  refine ((ensures_enter h hs.outside.1 hs.outside.2).and (enter_abstains c m)).mono ?_
  rintro r m₁ ⟨⟨rfl, h₁, he, -⟩, hworld, -⟩
  refine ((hs.solitary he).ensures_hookAnew h₁.toWellFormed).mono ?_
  rintro r m' ⟨rfl, hh⟩
  refine ⟨rfl, hh.enforces, fun k hk => ?_, hh.live, fun v hv => ?_, ?_⟩
  · rw [hh.constraintAt k hk, he.reset.constraintAt_ne hk]
  · rw [hh.standing v hv, he.standing]
  · have hpaint : ∀ v, m.solver.SamePaint m₁.solver v := fun v =>
      Solver.samePaint_of_map (he.variableAt v) fun x => by split <;> exact ⟨rfl, rfl, rfl⟩
    have hconstant : m₁.solver.constantAt = m.solver.constantAt := funext fun v => (hpaint v).2.1
    rw [hh.world, hworld, hconstant, funext he.cellAt]

/-- The constraint enters the graph and is hooked, and its key is handed back. -/
theorem Unhooked.ensures_hookUp (h : m.solver.Sound cells)
    (hs : Unhooked m.solver c node method cell) :
    Ensures (hookUp c) m fun r m' => r = .ok c ∧
      Hooked m m' c { node with enabled := true, enforcing := none } method := by
  unfold hookUp
  rw [← bind_assoc, ensures_bind]
  refine (hs.ensures_enter_hookAnew h).mono ?_
  rintro r m' ⟨rfl, hh⟩
  exact (ensures_pure _).2 ⟨rfl, hh⟩

/-- To enable the constraint is to enter and hook it, so it is not removed. -/
theorem Unhooked.enableOrRemove_amounts (h : m.solver.Sound cells)
    (hs : Unhooked m.solver c node method cell) :
    Amounts 3 (fun fuel => enableOrRemove fuel c) (hookUp c) m := by
  have henable : ∀ fuel, exec (enable fuel c) m = exec (enter c >>= fun _ => settle fuel c) m := by
    intro fuel
    rw [enable_eq, exec_bind, getConstraint, exec_query, Solver.lookupConstraint_eq_ok hs.outside.1]
    simp only [hs.outside.2, Bool.false_eq_true, if_false]
  have hamounts : Amounts 3 (fun fuel => enable fuel c) (do enter c; hookAnew c) m := by
    refine .congr henable (.bind (.refl _) fun _ m₁ hrun => ?_)
    obtain ⟨-, h₁, he, -⟩ := ensures_enter h hs.outside.1 hs.outside.2 _ m₁ hrun
    exact (hs.solitary he).settle_amounts h₁.toWellFormed
  unfold hookUp
  rw [← bind_assoc]
  refine hamounts.attempt_bind ((hs.ensures_enter_hookAnew h).mono fun r _ hr => ?_)
    fun _ _ _ => .refl _
  exact ⟨(), hr.1⟩

end

section

variable {cells : Prop} {sink : VarId} {inputs : List VarId} {f : Observe W T}

/-- An observer is stored if its inputs are distinct, do not contain the sink and exist. -/
theorem ensures_insertObserver_ok (h : m.solver.Sound cells) (hnodup : inputs.Nodup)
    (hnot : sink ∉ inputs) (hlive : ∀ v ∈ sink :: inputs, (m.solver.variableAt? v).isSome)
    (hroom : m.solver.constraints.size ≠ Arena.maxSlots) :
    Ensures (insertObserver sink inputs f) m fun r _ => ∃ c, r = .ok c := by
  unfold insertObserver declare ofBuild
  simp only [ensures_bind, ensures_ask, ensures_query]
  rcases Draft.define_observer m.solver.config.observerStrength "observer" sink inputs f with
    ⟨-, -, d, hd, hmethods, -⟩ | ⟨hbad, -⟩
  · rw [hd]
    simp only [Except.mapError]
    have hmem : Method.observe sink inputs f ∈ d.methods := hmethods ▸ List.mem_singleton_self _
    have hvars : ∀ v ∈ d.vars, (m.solver.variableAt? v).isSome := fun v hv =>
      hlive v (List.mem_cons.2 ((Definition.mem_vars_iff hmem).1 hv))
    have hinsert : Ensures (insert d) m fun r _ => ∃ c, r = .ok c := by
      unfold insert
      rw [ensures_bind]
      refine (ensures_lookups d.vars).mono ?_
      rintro r m' ⟨rfl, hall⟩
      obtain rfl := hall.2 hvars
      refine (ensures_storeConstraint_shelved rfl rfl hvars h).mono fun r _ hr => ?_
      cases r with
      | ok c => exact ⟨c, rfl⟩
      | error e => exact absurd hr.1 hroom
    refine (hinsert.and (ensures_insert_stored d)).mono ?_
    rintro _ m₁ ⟨⟨c, rfl⟩, ⟨-, hstored⟩, -⟩
    exact .changeConstraint ((hstored c).trans (if_pos rfl)) ((ensures_pure _).2 ⟨c, rfl⟩)
  · -- a draft is refused only for inputs that repeat or contain the sink
    exact absurd ⟨hnodup, hnot⟩ hbad

/-- An observer is stored, ready to be hooked, exactly if its inputs are distinct, do not contain the
sink and exist; otherwise all constraints are as before. -/
theorem ensures_insertObserver_iff (h : m.solver.Sound cells) {cell : Cell T}
    (hsink : m.solver.variableAt? sink = some { cell := cell }) (hun : m.solver.Unmentioned sink)
    (hroom : m.solver.constraints.size ≠ Arena.maxSlots)
    (hstrength : .weakest < m.solver.config.observerStrength) :
    Ensures (insertObserver sink inputs f) m fun r m' =>
      (m'.solver.Sound cells ∧ m'.world = m.world ∧
        ∀ v, m'.solver.variableAt? v = m.solver.variableAt? v) ∧
      ((∃ c, r = .ok c) ↔ inputs.Nodup ∧ sink ∉ inputs ∧
        ∀ v ∈ inputs, (m.solver.variableAt? v).isSome) ∧
      match r with
      | .ok c => m.solver.constraintAt? c = none ∧
        (∀ k, k ≠ c → m'.solver.constraintAt? k = m.solver.constraintAt? k) ∧
        ∃ d, d.volatile = false ∧ Unhooked m'.solver c { definition := d, sink := some sink }
          (.observe sink inputs f) cell
      | .error _ => ∀ k, m'.solver.constraintAt? k = m.solver.constraintAt? k := by
  have hiff : Ensures (insertObserver sink inputs f) m fun r _ =>
      inputs.Nodup ∧ sink ∉ inputs ∧ (∀ v ∈ inputs, (m.solver.variableAt? v).isSome) →
        ∃ c, r = .ok c := by
    intro r m' hrun ⟨hnodup, hnot, hlive⟩
    refine ensures_insertObserver_ok h hnodup hnot (List.forall_mem_cons.2 ⟨?_, hlive⟩) hroom r m' hrun
    rw [hsink]
    rfl
  refine ((((ensures_insertObserver h hun).and (ensures_insertObserver_stored sink inputs f)).and
    hiff).and (insertObserver_abstains sink inputs f m)).mono ?_
  rintro r m' ⟨⟨⟨⟨⟨h', -⟩, -⟩, hvars, hstored⟩, hgood⟩, hworld, -⟩
  refine ⟨⟨h', hworld, hvars⟩, ⟨?_, hgood⟩, ?_⟩
  · -- what is stored mentions existing variables only
    rintro ⟨c, rfl⟩
    obtain ⟨d, hdefine, -, hnew⟩ := hstored
    rcases Draft.define_observer m.solver.config.observerStrength "observer" sink inputs f with
      ⟨hnodup, hnot, d', hd, hmethods, -⟩ | ⟨-, e, he⟩
    · obtain rfl := Except.ok.inj (hdefine.symm.trans hd)
      have hmem : Method.observe sink inputs f ∈ d.methods := hmethods ▸ List.mem_singleton_self _
      refine ⟨hnodup, hnot, fun v hv => ?_⟩
      rw [← hvars]
      exact h'.mentioned ((hnew c).trans (if_pos rfl)) v ((Definition.mem_vars_iff hmem).2 (.inr hv))
    · cases hdefine.symm.trans he
  · cases r with
    | error e => exact hstored
    | ok c =>
      obtain ⟨d, hdefine, hfresh, hnew⟩ := hstored
      refine ⟨hfresh, fun k hk => (hnew k).trans (if_neg hk), ?_⟩
      rcases Draft.define_observer m.solver.config.observerStrength "observer" sink inputs f with
        ⟨-, -, d', hd, hmethods, hheld, hvolatile⟩ | ⟨-, e, he⟩
      · obtain rfl := Except.ok.inj (hdefine.symm.trans hd)
        refine ⟨d, hvolatile, ⟨(hnew c).trans (if_pos rfl), rfl⟩, hmethods, (hvars sink).trans hsink, ?_⟩
        exact hheld.symm ▸ hstrength
      · cases hdefine.symm.trans he

/-- A sink was made, and nothing else has changed. -/
structure Sunk (cells : Prop) (m m' : Machine W T) (sink : VarId) : Prop where
  /-- The graph is as sound as before. -/
  sound : m'.solver.Sound cells
  /-- The sink is new. -/
  made : m.solver.Made m'.solver { cell := .unassigned } (.ok sink)
  /-- The constraints are the same. -/
  constraints : m'.solver.constraints = m.solver.constraints
  /-- The settings are the same. -/
  config : m'.solver.config = m.solver.config
  /-- The world is the same. -/
  world : m'.world = m.world

/-- A sink is made if there is room. -/
theorem ensures_newUnassigned (h : m.solver.Sound cells)
    (hroom : m.solver.vars.size ≠ Arena.maxSlots) :
    Ensures newUnassigned m fun r m' => ∃ sink, r = .ok sink ∧ Sunk cells m m' sink := by
  have hrest : Ensures newUnassigned m fun _ m' =>
      m'.solver.constraints = m.solver.constraints ∧ m'.solver.config = m.solver.config := by
    unfold newUnassigned storeVariable
    rw [ensures_bind, ensures_query]
    cases m.solver.vars.insert { cell := .unassigned } with
    | error e => exact ⟨rfl, rfl⟩
    | ok p => exact (ensures_bind _ _).2 ((ensures_update _).2 ((ensures_pure _).2 ⟨rfl, rfl⟩))
  refine ((((ensures_storeVariable_ok hroom).and (ensures_storeVariable_made _)).and
    (ensures_storeVariable ⟨rfl, rfl, rfl, rfl, rfl⟩ h)).and
    ((storeVariable_abstains _ m).and hrest)).mono ?_
  rintro r m' ⟨⟨⟨⟨sink, rfl⟩, hmade, -⟩, ⟨h', -⟩, -⟩, ⟨hworld, -⟩, hconstraints, hconfig⟩
  exact ⟨sink, rfl, h', hmade, hconstraints, hconfig, hworld⟩

/-- Every constraint is found as before. -/
theorem Sunk.constraintAt {m' : Machine W T} (hs : Sunk cells m m' sink) (k : ConstraintId) :
    m'.solver.constraintAt? k = m.solver.constraintAt? k := by
  rw [Solver.constraintAt?, hs.constraints, Solver.constraintAt?]

/-- With a new sink, observers are stored exactly if their inputs existed before and are distinct. -/
theorem Sunk.ensures_insertObserver {m₁ : Machine W T} (h : m.solver.Sound cells)
    (hs : Sunk cells m m₁ sink) (hroom : m.solver.constraints.size ≠ Arena.maxSlots)
    (hstrength : .weakest < m.solver.config.observerStrength) :
    Ensures (insertObserver sink inputs f) m₁ fun r m₂ =>
      (m₂.solver.Sound cells ∧ m₂.world = m.world ∧
        m.solver.Made m₂.solver { cell := .unassigned } (.ok sink)) ∧
      ((∃ c, r = .ok c) ↔ (∀ v ∈ inputs, (m.solver.variableAt? v).isSome) ∧ inputs.Nodup) ∧
      match r with
      | .ok c => m.solver.constraintAt? c = none ∧
        (∀ k, k ≠ c → m₂.solver.constraintAt? k = m.solver.constraintAt? k) ∧
        ∃ d, d.volatile = false ∧ Unhooked m₂.solver c { definition := d, sink := some sink }
          (.observe sink inputs f) .unassigned
      | .error _ => ∀ k, m₂.solver.constraintAt? k = m.solver.constraintAt? k := by
  obtain ⟨hnew, hmade⟩ := hs.made
  have hun : m₁.solver.Unmentioned sink := by
    intro k node hnode hmem
    -- a variable that did not exist is mentioned by no constraint
    have hlive := h.mentioned ((hs.constraintAt k).symm.trans hnode) sink hmem
    rw [hnew] at hlive
    cases hlive
  -- the inputs that exist are other variables than the sink
  have hgood : (inputs.Nodup ∧ sink ∉ inputs ∧ ∀ v ∈ inputs, (m₁.solver.variableAt? v).isSome) ↔
      (∀ v ∈ inputs, (m.solver.variableAt? v).isSome) ∧ inputs.Nodup := by
    constructor
    · rintro ⟨hnodup, hnot, hlive⟩
      refine ⟨fun v hv => ?_, hnodup⟩
      have hlive := hlive v hv
      rwa [hmade, if_neg fun he : v = sink => hnot (he ▸ hv)] at hlive
    · rintro ⟨hlive, hnodup⟩
      have hne : ∀ v ∈ inputs, v ≠ sink := by
        rintro v hv rfl
        have hlive := hlive v hv
        rw [hnew] at hlive
        cases hlive
      refine ⟨hnodup, fun hmem => hne sink hmem rfl, fun v hv => ?_⟩
      rw [hmade, if_neg (hne v hv)]
      exact hlive v hv
  refine (ensures_insertObserver_iff hs.sound ((hmade sink).trans (if_pos rfl)) hun
    (hs.constraints ▸ hroom) (hs.config ▸ hstrength)).mono ?_
  rintro r m₂ ⟨⟨h₂, hworld, hvars⟩, hiff, hr⟩
  refine ⟨⟨h₂, hworld.trans hs.world, hnew, fun v => (hvars v).trans (hmade v)⟩, hiff.trans hgood, ?_⟩
  cases r with
  | error e => exact fun k => (hr k).trans (hs.constraintAt k)
  | ok c =>
    obtain ⟨hfresh, hother, hd⟩ := hr
    exact ⟨(hs.constraintAt c).symm.trans hfresh, fun k hk => (hother k hk).trans (hs.constraintAt k),
      hd⟩

/-- An observer that is hooked was made. -/
theorem Hooked.observed {m₂ m' : Machine W T} {c : ConstraintId} {d : Definition W T}
    (hmade : m.solver.Made m₂.solver { cell := .unassigned } (.ok sink))
    (hlive : ∀ v ∈ inputs, (m.solver.variableAt? v).isSome)
    (hworld : m₂.world = m.world) (hnew : m.solver.constraintAt? c = none)
    (hother : ∀ k, k ≠ c → m₂.solver.constraintAt? k = m.solver.constraintAt? k)
    (hvolatile : d.volatile = false) (hmethods : d.methods = [.observe sink inputs f])
    (hh : Hooked m₂ m' c { definition := d, enabled := true, sink := some sink }
      (.observe sink inputs f)) :
    Observed m m' inputs f c sink := by
  obtain ⟨i, hi, hnode⟩ := hh.enforces
  -- the inputs stand as before the sink was made
  have hne : ∀ v ∈ inputs, v ≠ sink := by
    rintro v hv rfl
    have hlive := hlive v hv
    rw [hmade.1] at hlive
    cases hlive
  have hinputs : ∀ v ∈ inputs, m.solver.SamePaint m₂.solver v := fun v hv =>
    Solver.samePaint_of_eq ((hmade.2 v).trans (if_neg (hne v hv)))
  have hcells : inputs.map m₂.solver.cellAt = inputs.map m.solver.cellAt :=
    List.map_congr_left fun v hv => (hinputs v hv).2.2
  have hvalues : m'.world = if d.constantFrom m₂.solver.constantAt sink then
      ((Method.observe sink inputs f).runOn (valuesFrom m₂.solver.cellAt inputs) m.world).2
    else m.world := hworld ▸ hh.world
  have hconstant : d.constantFrom m₂.solver.constantAt sink = true ↔
      ∀ v ∈ inputs, m.solver.constantAt v = true := by
    have hmem : Method.observe sink inputs f ∈ d.methods := hmethods ▸ List.mem_singleton_self _
    rw [Definition.constantFrom_eq_true_iff, and_iff_right hvolatile]
    have hothers : ∀ v, v ∈ inputs ↔ v ∈ d.vars ∧ v ≠ sink := fun v => Definition.mem_inputs_iff hmem
    simp only [← and_imp, ← hothers]
    exact forall₂_congr fun v hv => by rw [(hinputs v hv).2.1]
  refine ⟨⟨hmade.1, hh.live⟩, hnew, ⟨_, hnode, rfl, rfl, hi⟩, fun v hv => ?_, fun k hk => ?_,
    fun values hall hassigned => ?_, fun hnot => ?_⟩
  · rw [hh.standing v hv, hmade.2, if_neg hv]
  · rw [hh.constraintAt k hk, hother k hk]
  · rw [if_pos (hconstant.2 hall)] at hvalues
    rw [hvalues, valuesFrom_assigned (hcells.trans hassigned)]
    rfl
  · split at hvalues
    · next hall =>
      -- without values the method is not run
      cases hgather : valuesFrom m₂.solver.cellAt inputs with
      | error cause => rw [hvalues, hgather]; rfl
      | ok values =>
        exact absurd ⟨hconstant.1 hall, values, hcells.symm.trans (map_of_valuesFrom hgather)⟩ hnot
    · exact hvalues

/-- The program ends with the observer made, or refuses the inputs with nothing changed. -/
theorem ensures_tap (h : m.solver.Sound cells) (hvars : m.solver.vars.size ≠ Arena.maxSlots)
    (hconstraints : m.solver.constraints.size ≠ Arena.maxSlots)
    (hstrength : .weakest < m.solver.config.observerStrength) :
    Ensures (tap inputs f) m fun r m' =>
      ((∃ c, r = .ok c) ↔ (∀ v ∈ inputs, (m.solver.variableAt? v).isSome) ∧ inputs.Nodup) ∧
      (∀ c, r = .ok c → ∃ sink, Observed m m' inputs f c sink) ∧
      ∀ e, r = .error e → (∀ v, m'.solver.variableAt? v = m.solver.variableAt? v) ∧
        (∀ k, m'.solver.constraintAt? k = m.solver.constraintAt? k) ∧ m'.world = m.world := by
  unfold tap
  rw [ensures_bind]
  refine (ensures_newUnassigned h hvars).mono ?_
  rintro _ m₁ ⟨sink, rfl, hs⟩
  simp only
  rw [ensures_bind, ensures_attempt]
  refine (hs.ensures_insertObserver h hconstraints hstrength).mono ?_
  rintro r m₂ ⟨⟨h₂, hworld, hmade⟩, hiff, hr⟩
  cases r with
  | ok c =>
    obtain ⟨hnew, hother, d, hvolatile, hunhooked⟩ := hr
    refine (hunhooked.ensures_hookUp h₂).mono ?_
    rintro _ m' ⟨rfl, hh⟩
    have hgood := hiff.1 ⟨c, rfl⟩
    refine ⟨iff_of_true ⟨c, rfl⟩ hgood, ?_, by rintro _ ⟨⟩⟩
    rintro _ ⟨⟩
    exact ⟨sink, hh.observed hmade hgood.1 hworld hnew hother hvolatile hunhooked.methods⟩
  | error e =>
    simp only [ensures_bind, ensures_update, ensures_throw]
    have hbad := mt hiff.2 (by rintro ⟨c, hc⟩; cases hc)
    refine ⟨iff_of_false (by rintro ⟨c, hc⟩; cases hc) hbad, by rintro _ ⟨⟩,
      fun _ _ => ⟨fun v => ?_, hr, hworld⟩⟩
    -- the sink is forgotten again
    rw [Solver.variableAt?, Arena.get?_erase]
    split
    · next hv => rw [hv, hmade.1]
    · next hv => exact (hmade.2 v).trans (if_neg hv)

/-- To observe is to follow the program. -/
theorem observe_amounts (h : m.solver.Sound cells) (hvars : m.solver.vars.size ≠ Arena.maxSlots)
    (hconstraints : m.solver.constraints.size ≠ Arena.maxSlots)
    (hstrength : .weakest < m.solver.config.observerStrength) :
    Amounts 3 (fun fuel => observe fuel inputs f) (tap inputs f) m := by
  refine .bind (.refl _) fun sink m₁ hrun₁ => .bind (.refl _) fun result m₂ hrun₂ => ?_
  cases result with
  | error e => exact .refl _
  | ok c =>
    obtain ⟨_, hok, hs⟩ := ensures_newUnassigned h hvars _ m₁ hrun₁
    obtain rfl := Except.ok.inj hok
    have hstored : Ensures (attempt (insertObserver sink inputs f)) m₁ fun r m' => r = .ok (.ok c) →
        m'.solver.Sound cells ∧ ∃ node, Unhooked m'.solver c node (.observe sink inputs f) .unassigned := by
      rw [ensures_attempt]
      refine (hs.ensures_insertObserver h hconstraints hstrength).mono ?_
      rintro r m' ⟨⟨h', -⟩, -, hr⟩ hok
      obtain rfl := Except.ok.inj hok
      obtain ⟨-, -, d, -, hunhooked⟩ := hr
      exact ⟨h', _, hunhooked⟩
    obtain ⟨h₂, node, hunhooked⟩ := hstored _ m₂ hrun₂ rfl
    exact hunhooked.enableOrRemove_amounts h₂

end

end SolveM

/-- With a valid configuration, observers insist on more than the weakest strength. -/
theorem Config.weakest_lt_observerStrength {config : Config} (h : config.fault? = none) :
    .weakest < config.observerStrength := by
  have hne : config.observerStrength ≠ .weakest := by
    intro heq
    unfold fault? at h
    rw [if_pos heq] at h
    split at h <;> cases h
  cases heq : config.observerStrength with
  | weakest => exact absurd heq hne
  | _ => decide

/-- A call that does what a plain operation does ends as the plain operation does. -/
theorem Call.endsIn_of_amounts {W T : Type} {m : Machine W T} {call : Call W T} {k : Nat}
    {plain : SolveM W T (Answer W T)} {Q : Except SolveError (Answer W T) → Machine W T → Prop}
    (h : SolveM.Amounts k (fun fuel => call.run fuel) plain m) (htotal : SolveM.Total plain)
    (hQ : SolveM.Ensures plain m Q) : call.EndsIn m Q :=
  ⟨h.returns htotal hQ, h.ensures hQ⟩

namespace Run

open SolveM (Amounts Total tap)

variable {W T : Type} {own : Prop} {config : Config} {plans : List (Plan × Nat)} {m : Machine W T}

/-- The settings are those that the solver was made with. -/
theorem config_eq (h : Run own config plans m) : m.solver.config = config := by
  induction h with
  | start w => rfl
  | outside w _ ih => exact ih
  | call fuel call _ _ hrun ih => exact (SolveM.forward_frame.run call fuel _ _ _ hrun).1.trans ih

/-- In a solver whose configuration is valid, and as long as there is room, observing variables returns.
It succeeds exactly if the variables exist and are distinct. Then the observer and its sink are all that
is new, the observer determines its sink, everything else stands as before, and the observer was called
once, on the present values of the variables, if all of these are constant and have values, and not at
all otherwise. If it fails, nothing has changed. -/
theorem observe_outcomes (h : Run own config plans m) (hconfig : config.fault? = none)
    (hvars : m.solver.vars.size ≠ Arena.maxSlots)
    (hconstraints : m.solver.constraints.size ≠ Arena.maxSlots) (inputs : List VarId)
    (f : Observe W T) :
    (Call.observe inputs f).EndsIn m fun r m' =>
      ((∃ a, r = .ok a) ↔ (∀ v ∈ inputs, (m.solver.variableAt? v).isSome) ∧ inputs.Nodup) ∧
      (∀ a, r = .ok a → ∃ c sink, a = .constraint c ∧ Observed m m' inputs f c sink) ∧
      ∀ e, r = .error e → (∀ v, m'.solver.variableAt? v = m.solver.variableAt? v) ∧
        (∀ k, m'.solver.constraintAt? k = m.solver.constraintAt? k) ∧ m'.world = m.world := by
  have hsound := h.sound.1
  have hstrength : .weakest < m.solver.config.observerStrength :=
    h.config_eq ▸ Config.weakest_lt_observerStrength hconfig
  have hamounts : Amounts 3 (fun fuel => (Call.observe inputs f).run fuel)
      (do return .constraint (← tap inputs f)) m :=
    (SolveM.observe_amounts hsound hvars hconstraints hstrength).bind fun _ _ _ => .refl _
  have htotal : Total (do return Answer.constraint (← tap inputs f) : SolveM W T (Answer W T)) :=
    (SolveM.total_tap inputs f).bind fun _ => .pure _
  refine Call.endsIn_of_amounts hamounts htotal ?_
  rw [SolveM.ensures_bind]
  refine (SolveM.ensures_tap hsound hvars hconstraints hstrength).mono ?_
  rintro r m' ⟨hiff, hmade, hrefused⟩
  cases r with
  | ok c =>
    obtain ⟨sink, hobserved⟩ := hmade c rfl
    refine (SolveM.ensures_pure _).2 ⟨iff_of_true ⟨_, rfl⟩ (hiff.1 ⟨c, rfl⟩), ?_, nofun⟩
    rintro _ ⟨⟩
    exact ⟨c, sink, rfl, hobserved⟩
  | error e =>
    refine ⟨iff_of_false (by rintro ⟨a, ha⟩; cases ha) fun hgood => ?_, nofun, ?_⟩
    · obtain ⟨c, hc⟩ := hiff.2 hgood
      cases hc
    · rintro _ ⟨⟩
      exact hrefused e rfl

/-- An observer that keeps a record is shown the value of the only variable, once. -/
theorem observe_outcomes_record : ∃ m : Machine (List (List Nat)) Nat,
    Call.runAll 9 [.newVariable 5] ⟨.empty {}, [], []⟩ = some m ∧
    (Call.observe [⟨0, 0⟩] fun values record => values :: record).EndsIn m fun r m' =>
      (∃ a, r = .ok a) ∧ m'.world = [[5]] := by
  have hany : (Call.runAll (W := List (List Nat)) (T := Nat) 9 [.newVariable 5]
      ⟨.empty {}, [], []⟩).any (fun m => m.world = [] ∧ m.solver.vars.size ≠ Arena.maxSlots ∧
        m.solver.constraints.size ≠ Arena.maxSlots ∧ (m.solver.variableAt? ⟨0, 0⟩).isSome ∧
        m.solver.constantAt ⟨0, 0⟩ ∧ m.solver.cellAt ⟨0, 0⟩ = .assigned 5) = true := by
    decide +kernel
  simp only [Option.any_eq_true, decide_eq_true_eq] at hany
  obtain ⟨m, hm, hworld, hvars, hconstraints, hlive, hconstant, hcell⟩ := hany
  have hstart : Run False {} [] (⟨.empty {}, [], []⟩ : Machine (List (List Nat)) Nat) := .start []
  obtain ⟨plans, h⟩ := runAll hstart (by decide) hm
  refine ⟨m, hm, (observe_outcomes h (by decide) hvars hconstraints [⟨0, 0⟩] _).mono ?_⟩
  rintro r m' ⟨hiff, hmade, -⟩
  obtain ⟨a, ha⟩ := hiff.2 ⟨List.forall_mem_singleton.2 hlive, List.nodup_singleton _⟩
  obtain ⟨c, sink, -, hobserved⟩ := hmade a ha
  refine ⟨⟨a, ha⟩, ?_⟩
  rw [hobserved.shown [5] (List.forall_mem_singleton.2 hconstant) (congrArg (fun x => [x]) hcell), hworld]

end Run

end DeltaBlue
