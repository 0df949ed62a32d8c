import DeltaBlue.Proofs.Linking

/-!
# Chains in use

What is done to a chain is data: values are written, variables are kept by constraints that are weaker
than the links, such constraints are removed, and links are enabled and disabled. Each of these calls
returns, and succeeds if there is room for another constraint; and the solver still holds the chain. By
induction over the calls, two-way chains stay equal along their enabled links, and one-way chains follow
their first variable.
-/

namespace DeltaBlue

namespace Chain

open SolveM (StopsOnForest)

variable {W T : Type} {chain : Chain} {twoWay : Bool} {stays : Finset ConstraintId}
  {m m₀ : Machine W T} {v : VarId} {value : T} {a : Strength} {call : Call W T} {fuel : Nat}

/-! ## Where calls are stopped -/

/-- A write to a variable of the chain comes to an end, for the graph stays a forest. -/
theorem Hosted.write_stopsOnForest (h : chain.Hosted twoWay stays m.solver) (hv : v ∈ chain.vars) :
    StopsOnForest (SolveM.write fuel v value) m := by
  obtain ⟨x, hx⟩ := Option.isSome_iff_exists.1 (h.row.live v hv)
  exact SolveM.write_stopsOnForest h.orderly.toSound hx fun c m₁ hs =>
    (h.row.pinned hs hv rfl (.inr ⟨_, _, _, rfl⟩)).forestWith c

/-- Keeping a variable of the chain comes to an end, for the graph stays a forest. -/
theorem Hosted.stay_stopsOnForest (h : chain.Hosted twoWay stays m.solver) (hv : v ∈ chain.vars) :
    StopsOnForest (SolveM.stay fuel v a) m := by
  have hpins : (Definition.stay a v : Definition W T).Pins v := .inl ⟨a, rfl⟩
  exact SolveM.constrain_stopsOnForest h.orderly.toSound
    (fun u hu => hpins.mem_vars.1 hu ▸ h.row.live v hv) fun c m₁ hs =>
      (h.row.pinned hs hv rfl hpins).forestWith c

/-! ## Calls on chains -/

/-- The call writes to a variable of the chain, keeps one weakly or at medium strength, removes a
constraint that keeps one, or enables or disables a link. -/
inductive Handles (chain : Chain) (stays : Finset ConstraintId) : Call W T → Prop
  /-- A value is written. -/
  | write {v : VarId} (hv : v ∈ chain.vars) (value : T) : Handles chain stays (.write v value)
  /-- A variable is kept. -/
  | stay {v : VarId} {a : Strength} (hv : v ∈ chain.vars) (ha : a = .weak ∨ a = .medium) :
    Handles chain stays (.stay v a)
  /-- A variable is no longer kept. -/
  | removeStay {c : ConstraintId} (hc : c ∈ stays) : Handles chain stays (.removeConstraint c)
  /-- A link is enabled. -/
  | enable {k : ConstraintId} (hk : k ∈ chain.links) : Handles chain stays (.enable k)
  /-- A link is disabled. -/
  | disable {k : ConstraintId} (hk : k ∈ chain.links) : Handles chain stays (.disable k)

/-- The constraints that keep variables, after a call. -/
def staysAfter (stays : Finset ConstraintId) :
    Call W T → Except SolveError (Answer W T) → Finset ConstraintId
  | .stay _ _, .ok (.constraint c) => insert c stays
  | .removeConstraint c, .ok _ => stays.erase c
  | _, _ => stays

/-- The machines that are reached by calls on a chain, with the constraints that keep variables. -/
inductive Handled (chain : Chain) (m₀ : Machine W T) : Finset ConstraintId → Machine W T → Prop
  /-- The chain as it was made. -/
  | start : Handled chain m₀ ∅ m₀
  /-- A call returns. -/
  | call {stays : Finset ConstraintId} {m m' : Machine W T} {call : Call W T}
    {r : Except SolveError (Answer W T)} (fuel : Nat) (h : Handled chain m₀ stays m)
    (hcall : chain.Handles stays call) (hrun : (call.run fuel).exec m = some (r, m')) :
    Handled chain m₀ (staysAfter stays call r) m'

/-- What a call on a two-way chain leaves behind. -/
structure Done (chain : Chain) (stays : Finset ConstraintId) (call : Call W T)
    (r : Except SolveError (Answer W T)) (m' : Machine W T) : Prop where
  /-- The solver holds the chain. -/
  hosted : chain.Hosted true (staysAfter stays call r) m'.solver
  /-- The call has succeeded, or there was no room for another constraint. -/
  result : (∃ a, r = .ok a) ∨ chain.links.length + stays.card = Arena.maxSlots ∧
    r = .error (.arena (.capacityExceeded Arena.maxSlots))
  /-- What was written is found wherever enabled links lead. -/
  written : ∀ v x, call = .write v x → r = .ok .done →
    ∀ u, chain.Connected m'.solver.Enabled v u → m'.solver.cellAt u = .assigned x

/-- A write to a two-way chain returns, and leaves behind what `Done` says. -/
theorem Hosted.write_endsIn (h : chain.Hosted true stays m.solver) (hv : v ∈ chain.vars) (value : T) :
    (Call.write v value).EndsIn m fun r m' => m'.solver.passes < 2 ^ 64 →
      chain.Done stays (.write v value) r m' := by
  obtain ⟨p, hp⟩ := List.mem_iff_getElem?.1 hv
  refine Call.endsIn_of_done (fun _ => rfl) (fun _ => h.write_stopsOnForest hv) fun fuel => ?_
  refine (h.ensures_write_connected (.inr rfl) hp).mono fun r m' hdone hlt => ?_
  obtain ⟨rfl, hhosted, hen, hcells⟩ | ⟨hfull, rfl, rfl⟩ := hdone hlt
  · refine ⟨hhosted, .inl ⟨_, rfl⟩, ?_⟩
    rintro _ _ ⟨⟩ - u hvu
    exact hcells u (hvu.mem hv) (hvu.mono fun k _ => (hen k).1)
  · exact ⟨h, .inr ⟨h.row.size_eq.symm.trans hfull, rfl⟩, fun _ _ _ => nofun⟩

/-- Keeping a variable more weakly than the links insist returns, and leaves behind what `Done`
says. -/
theorem Hosted.stay_endsIn (h : chain.Hosted true stays m.solver) (hv : v ∈ chain.vars)
    (ha : a < .strong) :
    (Call.stay v a).EndsIn m fun r m' => m'.solver.passes < 2 ^ 64 →
      chain.Done stays (.stay v a) r m' := by
  refine Call.endsIn_of_return (fun _ => rfl) (fun _ => h.stay_stopsOnForest hv) fun fuel => ?_
  refine (h.ensures_stay hv ha).mono fun r m' hdone hlt => ?_
  cases r with
  | ok c => exact ⟨hdone hlt, .inl ⟨_, rfl⟩, nofun⟩
  | error e =>
    obtain ⟨hfull, rfl, rfl⟩ := hdone hlt
    exact ⟨h, .inr ⟨h.row.size_eq.symm.trans hfull, rfl⟩, nofun⟩

/-- Each call on a two-way chain returns, and leaves behind what `Done` says. -/
theorem Handles.endsIn (hcall : chain.Handles stays call) (h : chain.Hosted true stays m.solver) :
    call.EndsIn m fun r m' => m'.solver.passes < 2 ^ 64 → chain.Done stays call r m' := by
  have hsound := h.orderly.toSound
  have hforest := h.orderly.tidy.forest
  -- each case is that the call stops on the forest, with what it ensures when it stops
  cases hcall with
  | write hv value => exact h.write_endsIn hv value
  | stay hv ha => exact h.stay_endsIn hv (by rcases ha with rfl | rfl <;> decide)
  | removeStay hc =>
    refine Call.endsIn_of_done (fun _ => rfl)
      (fun _ => SolveM.removeConstraint_stopsOnForest hsound hforest) fun fuel => ?_
    refine (h.ensures_removeConstraint hc).mono fun r m' hdone hlt => ?_
    obtain ⟨rfl, hhosted⟩ := hdone hlt
    exact ⟨hhosted, .inl ⟨_, rfl⟩, nofun⟩
  | enable hk =>
    refine Call.endsIn_of_done (fun _ => rfl)
      (fun _ => SolveM.enable_stopsOnForest hsound (h.row.forestWith _)) fun fuel => ?_
    refine (h.ensures_enable hk).mono fun r m' hdone hlt => ?_
    obtain ⟨rfl, hhosted⟩ := hdone hlt
    exact ⟨hhosted, .inl ⟨_, rfl⟩, nofun⟩
  | disable hk =>
    refine Call.endsIn_of_done (fun _ => rfl)
      (fun _ => SolveM.disable_stopsOnForest hsound hforest) fun fuel => ?_
    refine (h.ensures_disable hk).mono fun r m' hdone hlt => ?_
    obtain ⟨rfl, hhosted⟩ := hdone hlt
    exact ⟨hhosted, .inl ⟨_, rfl⟩, nofun⟩

/-- Handling a chain goes forward: the number of passes grows. -/
theorem Handled.passes_le (h : chain.Handled m₀ stays m) : m₀.solver.passes ≤ m.solver.passes := by
  induction h with
  | start => exact Nat.le_refl _
  | call fuel _ _ hrun ih => exact ih.trans (SolveM.forward_frame.run _ fuel _ _ _ hrun).2

/-- However a two-way chain is handled, its solver holds it. -/
theorem Handled.hosted (h : chain.Handled m₀ stays m) (h₀ : chain.Hosted true ∅ m₀.solver)
    (hpasses : m.solver.passes < 2 ^ 64) : chain.Hosted true stays m.solver := by
  induction h with
  | start => exact h₀
  | @call stays m m' call r fuel _ hcall hrun ih =>
    -- passes are never taken back, so the bound at the end is one for every call before
    have hle := (SolveM.forward_frame.run call fuel _ r m' hrun).2
    have hm := ih (Nat.lt_of_le_of_lt hle hpasses)
    exact ((hcall.endsIn hm).2 fuel r m' hrun hpasses).hosted

/-! ## Two-way chains -/

/-- However a two-way chain is handled, all its enabled links are in force and their variables have
equal values. Each further call returns and succeeds, unless there is no room for another constraint;
and after a value was written, every variable to which enabled links lead has it. -/
theorem Handled.neighbours_agree {n : Nat} {w : W} (hmade : SolveM.exec
      (SolveM.twoWayChain fuel n value) ⟨.empty {}, w, []⟩ = some (.ok chain, m₀))
    (h : chain.Handled m₀ stays m) (hpasses : m.solver.passes < 2 ^ 64) :
    chain.vars.length = n ∧ chain.links.length = n - 1 ∧
    (∀ i k, chain.links[i]? = some k → ∃ v w node, chain.vars[i]? = some v ∧
      chain.vars[i + 1]? = some w ∧ m.solver.constraintAt? k = some node ∧
      (∀ u, u ∈ node.definition.vars ↔ u = v ∨ u = w) ∧
      (node.enabled = true → node.isEnforcing = true ∧
        ∃ x, m.solver.cellAt v = .assigned x ∧ m.solver.cellAt w = .assigned x)) ∧
    ∀ call, chain.Handles stays call → call.EndsIn m fun r m' => m'.solver.passes < 2 ^ 64 →
      ((∃ a, r = .ok a) ∨ chain.links.length + stays.card = Arena.maxSlots ∧
        r = .error (.arena (.capacityExceeded Arena.maxSlots))) ∧
      ∀ v x, call = .write v x → r = .ok .done →
        ∀ u, chain.Connected m'.solver.Enabled v u → m'.solver.cellAt u = .assigned x := by
  obtain ⟨_, hmade⟩ :=
    ensures_make true n value w _ m₀ hmade (Nat.lt_of_le_of_lt h.passes_le hpasses)
  obtain ⟨hvars, hlinks, hlaid⟩ := hmade chain rfl
  have hhosted := h.hosted hlaid.hosted hpasses
  refine ⟨hvars, hlinks, fun i k hi => ?_, fun call hcall => ?_⟩
  · obtain ⟨v, w, node, hv, hw, hnode, hlinks⟩ := hhosted.row.link hi
    refine ⟨v, w, node, hv, hw, hnode, fun u => hlinks.mem_vars, fun hen => ⟨?_, ?_⟩⟩
    · -- an enabled link is in force, so it makes its two variables equal
      have henf := hhosted.isEnforcing (List.mem_of_getElem? hi) ⟨node, hnode, hen⟩
      rwa [Solver.isEnforcing, hnode] at henf
    · obtain ⟨x, hx, _⟩ := hhosted.assigned v (List.mem_of_getElem? hv)
      exact ⟨x, hx, (hhosted.cell_eq ⟨i, k, hi, ⟨node, hnode, hen⟩, .inl ⟨hv, hw⟩⟩).symm.trans hx⟩
  · exact (hcall.endsIn hhosted).mono fun r m' hdone hlt => ⟨(hdone hlt).result, (hdone hlt).written⟩

/-- A chain of three variables. -/
def three : Chain := ⟨[⟨0, 0⟩, ⟨1, 0⟩, ⟨2, 0⟩], [⟨0, 0⟩, ⟨1, 0⟩]⟩

/-- The last variable is kept weakly, the first link is disabled, and a value is written in the
middle. -/
theorem Handled.neighbours_agree_three : ∃ m₀ m : Machine Unit Nat,
    SolveM.exec (SolveM.twoWayChain 9 3 5) ⟨.empty {}, (), []⟩ = some (.ok three, m₀) ∧
    three.Handled m₀ {⟨2, 0⟩} m ∧ m.solver.cellAt ⟨1, 0⟩ = m.solver.cellAt ⟨2, 0⟩ ∧
    ∀ x, (Call.write ⟨1, 0⟩ x).EndsIn m fun r m' => m'.solver.passes < 2 ^ 64 →
      (∃ a, r = .ok a) ∧ (r = .ok .done → m'.solver.cellAt ⟨1, 0⟩ = .assigned x) := by
  have hany : (SolveM.exec (SolveM.twoWayChain (W := Unit) 9 3 5) ⟨.empty {}, (), []⟩).any (fun p =>
      p.1 = .ok three ∧ (SolveM.exec ((Call.stay ⟨2, 0⟩ .weak).run 9) p.2).any fun q =>
        staysAfter ∅ (.stay ⟨2, 0⟩ .weak) q.1 = {⟨2, 0⟩} ∧
        (SolveM.exec ((Call.disable ⟨0, 0⟩).run 9) q.2).any fun q =>
          (SolveM.exec ((Call.write ⟨1, 0⟩ 7).run 9) q.2).any fun q =>
            q.2.solver.passes < 2 ^ 64 ∧
            (q.2.solver.constraintAt? ⟨1, 0⟩).any Constraint.enabled) = true := by
    decide +kernel
  simp only [Option.any_eq_true, decide_eq_true_eq] at hany
  obtain ⟨⟨_, m₀⟩, hmade, rfl, ⟨r₁, m₁⟩, h₁, hstays, ⟨r₂, m₂⟩, h₂, ⟨r₃, m⟩, h₃, hlt, node, hnode,
    hen⟩ := hany
  -- after the first call one constraint keeps the last variable, and the other two keep none
  have hkept : three.Handled m₀ {⟨2, 0⟩} m₁ :=
    hstays ▸ Handled.start.call 9 (.stay (by decide) (.inl rfl)) h₁
  have h : three.Handled m₀ {⟨2, 0⟩} m :=
    (hkept.call 9 (.disable (by decide)) h₂).call 9 (.write (by decide) 7) h₃
  obtain ⟨_, _, hlinks, hends⟩ := neighbours_agree hmade h hlt
  refine ⟨m₀, m, hmade, h, ?_, fun x => (hends _ (.write (by decide) x)).mono fun r m' hdone hlt => ?_⟩
  · obtain ⟨v, w, n, hv, hw, hn, _, hequal⟩ := hlinks 1 ⟨1, 0⟩ rfl
    obtain rfl := Option.some.inj hv
    obtain rfl := Option.some.inj hw
    obtain rfl := Option.some.inj (hnode.symm.trans hn)
    obtain ⟨_, x, hx, hx'⟩ := hequal hen
    exact hx.trans hx'.symm
  · obtain ⟨hresult, hwritten⟩ := hdone hlt
    exact ⟨hresult.resolve_right fun hfull => absurd hfull.1 (by decide),
      fun hr => hwritten _ x rfl hr _ .refl⟩

/-! ## One-way chains -/

/-- The machines that are reached by writing to variables of a chain, with what was written, the latest
first. -/
inductive Written (chain : Chain) (m₀ : Machine W T) : List (VarId × T) → Machine W T → Prop
  /-- The chain as it was made. -/
  | start : Written chain m₀ [] m₀
  /-- A value is written. -/
  | write {writes : List (VarId × T)} {m m' : Machine W T} {r : Except SolveError (Answer W T)}
    {v : VarId} {value : T} (fuel : Nat) (h : Written chain m₀ writes m) (hv : v ∈ chain.vars)
    (hrun : ((Call.write v value).run fuel).exec m = some (r, m')) :
    Written chain m₀ ((v, value) :: writes) m'

/-- Writing to a chain goes forward: the number of passes grows. -/
theorem Written.passes_le {writes : List (VarId × T)} (h : chain.Written m₀ writes m) :
    m₀.solver.passes ≤ m.solver.passes := by
  induction h with
  | start => exact Nat.le_refl _
  | write fuel _ _ hrun ih => exact ih.trans (SolveM.forward_frame.run _ fuel _ _ _ hrun).2

/-- The chain is held by a solver, all its links are enabled, and its first variable has the value. -/
structure Led (chain : Chain) (value : T) (s : Solver W T) : Prop where
  /-- The solver holds the chain and nothing else. -/
  hosted : chain.Hosted false ∅ s
  /-- The links are enabled. -/
  enabled : ∀ k ∈ chain.links, s.Enabled k
  /-- The first variable has the value. -/
  head : ∀ u, chain.first? = some u → s.cellAt u = .assigned value

/-- A value that is written to the first variable is the one that leads from then on, and one that is
written elsewhere is not. -/
theorem Led.write_endsIn {x : T} (h : chain.Led x m.solver) (hv : v ∈ chain.vars) (value : T) :
    (Call.write v value).EndsIn m fun r m' => m'.solver.passes < 2 ^ 64 → r = .ok .done ∧
      chain.Led (if chain.first? = some v then value else x) m'.solver := by
  refine Call.endsIn_of_done (fun _ => rfl) (fun _ => h.hosted.write_stopsOnForest hv) fun fuel => ?_
  obtain ⟨u, hu⟩ : ∃ u, chain.first? = some u :=
    Option.isSome_iff_exists.1 (List.isSome_head?.2 (List.ne_nil_of_mem hv))
  refine (h.hosted.ensures_write_oneWay hv hu (h.head u hu)).mono fun r m' hdone hlt => ?_
  obtain ⟨rfl, hhosted, hen, hcell⟩ | ⟨hfull, _⟩ := hdone hlt
  · refine ⟨rfl, hhosted, fun k hk => (hen k).2 (h.enabled k hk), fun u' hu' => ?_⟩
    obtain rfl := Option.some.inj (hu.symm.trans hu')
    simp only [hcell, hu, Option.some.injEq, eq_comm]
  · -- there is always room for one more constraint beside the links of a chain
    exact absurd hfull (Nat.ne_of_lt (h.hosted.row.size_lt hv))

/-- All variables follow the first one. -/
theorem Led.cellAt_eq {x : T} {s : Solver W T} (h : chain.Led x s)
    (hlinks : chain.links.length = chain.vars.length - 1) (hv : v ∈ chain.vars) :
    s.cellAt v = .assigned x := by
  obtain ⟨i, hi⟩ := List.mem_iff_getElem?.1 hv
  -- along the chain: each variable has the value of the one before it
  induction i generalizing v with
  | zero => exact h.head v (List.head?_eq_getElem?.trans hi)
  | succ i ih =>
    obtain ⟨hlt, _⟩ := List.getElem?_eq_some_iff.1 hi
    have hu : chain.vars[i]? = some chain.vars[i] := List.getElem?_eq_getElem (by omega)
    have hk : chain.links[i]? = some chain.links[i] := List.getElem?_eq_getElem (by omega)
    have hadjacent : chain.Adjacent s.Enabled chain.vars[i] v :=
      ⟨i, _, hk, h.enabled _ (List.mem_of_getElem? hk), .inl ⟨hu, hi⟩⟩
    exact (h.hosted.cell_eq hadjacent).symm.trans (ih (List.mem_of_getElem? hu) hu)

/-- The last value that was written to the first variable, or the one that the chain began with. -/
def leading (chain : Chain) (value : T) : List (VarId × T) → T
  | [] => value
  | (v, x) :: writes => if chain.first? = some v then x else leading chain value writes

/-- Whatever is written to a one-way chain, it is led by the value that `leading` computes. -/
theorem Written.led {writes : List (VarId × T)} (h : chain.Written m₀ writes m)
    (h₀ : chain.Led value m₀.solver) (hpasses : m.solver.passes < 2 ^ 64) :
    chain.Led (chain.leading value writes) m.solver := by
  induction h with
  | start => exact h₀
  -- a write changes what leads the chain if it goes to the first variable, and nothing otherwise
  | @write writes m m' r v x fuel _ hv hrun ih =>
    have hle := (SolveM.forward_frame.run _ fuel _ r m' hrun).2
    have hm := ih (Nat.lt_of_le_of_lt hle hpasses)
    exact ((hm.write_endsIn hv x).2 fuel r m' hrun hpasses).2

/-- Whatever is written to variables of a one-way chain, each of them has the value that was last
written to the first one, or the one that the chain began with, and all links are enabled and in force.
Each further write returns and succeeds. -/
theorem Written.follow_first {n : Nat} {w : W} {writes : List (VarId × T)} (hmade : SolveM.exec
      (SolveM.oneWayChain fuel n value) ⟨.empty {}, w, []⟩ = some (.ok chain, m₀))
    (h : chain.Written m₀ writes m) (hpasses : m.solver.passes < 2 ^ 64) :
    chain.vars.length = n ∧ chain.links.length = n - 1 ∧
    (∀ v ∈ chain.vars, m.solver.cellAt v = .assigned (chain.leading value writes)) ∧
    (∀ k ∈ chain.links, m.solver.Enabled k ∧ m.solver.isEnforcing k = true) ∧
    ∀ v ∈ chain.vars, ∀ x, (Call.write v x).EndsIn m fun r m' =>
      m'.solver.passes < 2 ^ 64 → r = .ok .done := by
  obtain ⟨_, hmade⟩ :=
    ensures_make false n value w _ m₀ hmade (Nat.lt_of_le_of_lt h.passes_le hpasses)
  obtain ⟨hvars, hlinks, hlaid⟩ := hmade chain rfl
  have hhead : ∀ u, chain.first? = some u → m₀.solver.cellAt u = .assigned value := by
    intro u hu
    obtain ⟨x, hx, rfl⟩ := hlaid.meets u (List.mem_of_head? hu)
    exact hx
  have hled := h.led ⟨hlaid.hosted, hlaid.enabled, hhead⟩ hpasses
  refine ⟨hvars, hlinks, fun v => hled.cellAt_eq (hlinks.trans (by rw [hvars])),
    fun k hk => ⟨hled.enabled k hk, hled.hosted.isEnforcing hk (hled.enabled k hk)⟩, ?_⟩
  exact fun v hv x => (hled.write_endsIn hv x).mono fun r m' hdone hlt => (hdone hlt).1

/-- Values are written in the middle, to the first variable, and to the last. -/
theorem Written.follow_first_three : ∃ m₀ m : Machine Unit Nat,
    SolveM.exec (SolveM.oneWayChain 9 3 5) ⟨.empty {}, (), []⟩ = some (.ok three, m₀) ∧
    three.Written m₀ [(⟨2, 0⟩, 9), (⟨0, 0⟩, 7), (⟨1, 0⟩, 8)] m ∧
    (∀ v ∈ three.vars, m.solver.cellAt v = .assigned 7) ∧
    ∀ x, (Call.write ⟨1, 0⟩ x).EndsIn m fun r m' => m'.solver.passes < 2 ^ 64 → r = .ok .done := by
  have hany : (SolveM.exec (SolveM.oneWayChain (W := Unit) 9 3 5) ⟨.empty {}, (), []⟩).any (fun p =>
      p.1 = .ok three ∧ (SolveM.exec ((Call.write ⟨1, 0⟩ 8).run 9) p.2).any fun q =>
        (SolveM.exec ((Call.write ⟨0, 0⟩ 7).run 9) q.2).any fun q =>
          (SolveM.exec ((Call.write ⟨2, 0⟩ 9).run 9) q.2).any fun q =>
            q.2.solver.passes < 2 ^ 64) = true := by
    decide +kernel
  simp only [Option.any_eq_true, decide_eq_true_eq] at hany
  obtain ⟨⟨_, m₀⟩, hmade, rfl, ⟨r₁, m₁⟩, h₁, ⟨r₂, m₂⟩, h₂, ⟨r₃, m⟩, h₃, hlt⟩ := hany
  have h : three.Written m₀ [(⟨2, 0⟩, 9), (⟨0, 0⟩, 7), (⟨1, 0⟩, 8)] m :=
    ((Written.start.write 9 (by decide) h₁).write 9 (by decide) h₂).write 9 (by decide) h₃
  obtain ⟨_, _, hcells, _, hends⟩ := follow_first hmade h hlt
  exact ⟨m₀, m, hmade, h, hcells, hends _ (by decide)⟩

end Chain

end DeltaBlue
