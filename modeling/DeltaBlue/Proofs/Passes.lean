import DeltaBlue.Proofs.Rest

/-!
# Adding and removing bring the graph to rest

Adding a constraint and removing one call each other. The proof follows the calls: what `enforce`
and `displace` do is shown for any `remove` that repairs a mendable graph, what `withdraw` does for
any `add` that keeps a sound graph sound, and the two meet in an induction on the fuel. Every
operation here ends in a sound graph whether it succeeds or fails.
-/

namespace DeltaBlue

namespace SolveM

open Solver (Sound Mendable InPass Rest Idle)

variable {W T : Type} {m : Machine W T} {cells : Prop} {c : ConstraintId} {node : Constraint W T}

/-- Adding an idle constraint to a sound graph leaves it sound. -/
def AddsSoundly (cells : Prop) (add : ConstraintId → SolveM W T Unit) : Prop :=
  ∀ m c, m.solver.Sound cells → m.solver.Idle c →
    Ensures (add c) m fun _ m' => m'.solver.Sound cells

/-- Removing a constraint that was switched off repairs a graph that is mendable there. -/
def RemovesSoundly (cells : Prop) (remove : ConstraintId → SolveM W T Unit) : Prop :=
  ∀ m s c node, s.WellFormed → SwitchedOff s m.solver c node → m.solver.passes = s.passes →
    (s.passes < 2 ^ 64 → s.Mendable cells node) →
    Ensures (remove c) m fun _ m' => m'.solver.Sound cells

/-! ## Removing -/

/-- Detaching a constraint runs nothing. -/
theorem detach_abstains (c : ConstraintId) : Abstains (W := W) (T := T) (detach c) := by
  refine .bind (.getConstraint c) fun node => .bind (.changeConstraint c _) fun _ => ?_
  refine .bind (deregister_abstains c) fun _ => ?_
  cases node.output? with
  | none => exact .pure _
  | some o => exact .bind (.note rfl) fun _ => .bind (.changeVariable o _) fun _ => .pure _

/-- The walk from the output of a constraint that has left the graph brings about the condition for all
constraints, if those that did not meet it had their outputs downstream. It finds the idle constraints on
its way. -/
theorem ensures_strandedFrom_renews {fine : Solver W T → Ledger T → ConstraintId → Prop}
    (hfine : Solver.Renewable fine) {s : Solver W T} {fuel : Nat} {a : VarId} (h : s.WellFormed)
    (hd : s.Detached m.solver c node) (hout : node.output? = some a)
    (hpending : ∀ k, ¬ fine s m.ledger k → s.Downstream node k) :
    Ensures (strandedFrom fuel (.singleton a) .empty) m fun r m' => m.solver.Walked m'.solver ∧
      (∃ found, r = .ok found ∧ m.solver.Finds (.singleton a) found) ∧
      (∀ k, fine m'.solver m'.ledger k) ∧ m.solver.Ends a := by
  refine (ensures_strandedFrom hfine (h.detached hd) ?_ fun k hk => ?_).mono ?_
  · intro v hv
    obtain rfl := OrderedSet.mem_singleton.1 hv
    rw [hd.variableAt, Option.isSome_map]
    exact h.mentioned hd.before v (Constraint.mem_vars_of_output? hout)
  · obtain ⟨_, rfl, hrest⟩ := hfine.under hd h hout (hpending k) hk
    exact ⟨_, OrderedSet.mem_singleton.2 rfl, hrest⟩
  · rintro r m₂ ⟨hw, ⟨found, hok, _, hfinds⟩, hall, hends⟩
    exact ⟨hw, ⟨found, hok, hfinds⟩, hall, hends a (OrderedSet.mem_singleton.2 rfl)⟩

/-- The walk from the output of a constraint that has left a mendable graph brings the graph to
rest, and finds the idle constraints on its way. -/
theorem ensures_strandedFrom_sound {s : Solver W T} {fuel : Nat} {a : VarId} (h : s.WellFormed)
    (hd : s.Detached m.solver c node) (hp : m.solver.passes = s.passes)
    (hmend : s.passes < 2 ^ 64 → s.Mendable cells node) (hout : node.output? = some a) :
    Ensures (strandedFrom fuel (.singleton a) .empty) m fun r m' => m'.solver.Sound cells ∧
      m.solver.Repaints m'.solver ∧ (s.passes < 2 ^ 64 →
        ∃ found, r = .ok found ∧ m.solver.Finds (.singleton a) found) := by
  have h₁ := h.detached hd
  by_cases hlt : s.passes < 2 ^ 64
  · have hm := hmend hlt
    refine (ensures_strandedFrom_renews (Solver.settled_renewable fun _ => cells) h hd hout
      hm.pending).mono ?_
    rintro r m₂ ⟨hw, hfound, hsettled, hends⟩
    refine ⟨⟨h₁.repaints hw.toRepaints, fun _ => ⟨hsettled,
      (hd.released hm.released).walked h₁ hw, Solver.Acyclic.repaints ?_ hw.toRepaints,
      (hd.stamped hm.stamped hp).repaints hw.toRepaints⟩⟩, hw.toRepaints, fun _ => hfound⟩
    -- a walk that has come to its end has shown that there is no cycle downstream
    refine hm.acyclic hd fun a' ha' => ?_
    obtain rfl := Option.some.inj (hout.symm.trans ha')
    exact hends
  · -- the marks have started again, and only the structure is promised
    refine (strandedFrom_repaints fuel _ _ m).mono fun r m₂ hr => ?_
    refine ⟨⟨h₁.repaints hr, fun hlt' => absurd ?_ hlt⟩, hr, fun hlt' => absurd hlt' hlt⟩
    rw [← hp, ← hr.passes]
    exact hlt'

/-- The constraints of a list are taken one by one. One may have got a method or lost its place in the
meantime and is passed over then. -/
theorem Ensures.readd_cons {add : ConstraintId → SolveM W T Unit} {cs : List ConstraintId}
    {failure : Option SolveError} {Q : Except SolveError Unit → Machine W T → Prop}
    (hnone : m.solver.constraintAt? c = none → ∀ e, Q (.error e) m)
    (hadd : m.solver.Idle c → Ensures (add c) m fun r m' => ∀ failure',
      (r = .ok () → failure' = failure) → (∀ e, r = .error e → failure' ≠ none) →
        Ensures (readd add cs failure') m' Q)
    (hskip : ¬ m.solver.Idle c → Ensures (readd add cs failure) m Q) :
    Ensures (readd add (c :: cs) failure) m Q := by
  unfold readd
  rw [ensures_bind, ensures_getConstraint]
  unfold Solver.lookupConstraint
  cases hnode : m.solver.constraintAt? c with
  | none => exact hnone hnode _
  | some node =>
    simp only
    split
    · next hidle =>
      rw [ensures_bind, ensures_attempt]
      refine (hadd ((Solver.idle_iff hnode).2 hidle)).mono fun r m' hrest => ?_
      cases r with
      | ok _ => exact hrest _ (fun _ => rfl) nofun
      | error e => exact hrest _ nofun fun _ _ => by cases failure <;> simp
    · next hnot => exact hskip fun hidle => hnot ((Solver.idle_iff hnode).1 hidle)

section

variable {add : ConstraintId → SolveM W T Unit} (hadd : AddsSoundly cells add)
include hadd

/-- Adding constraints again, one after the other, leaves the graph sound, whether or not they can
be enforced. -/
theorem ensures_readd {cs : List ConstraintId} {failure : Option SolveError}
    (h : m.solver.Sound cells) :
    Ensures (readd add cs failure) m fun _ m' => m'.solver.Sound cells := by
  induction cs generalizing m failure with
  | nil => cases failure with
    | none => exact (ensures_pure _).2 h
    | some e => exact (ensures_throw _).2 h
  | cons c cs ih =>
    -- one that got a method in the meantime is passed over, and the others are added
    refine .readd_cons (fun _ _ => h) (fun hidle => ?_) fun _ => ih h
    exact (hadd m c h hidle).mono fun _ _ hm' _ _ _ => ih hm'

/-- Taking a constraint out of a mendable graph brings it to rest. -/
theorem ensures_withdraw_sound (fuel : Nat) : RemovesSoundly cells (withdraw add fuel) := by
  intro m s c node h hoff hpasses hmend
  rw [withdraw_eq, ensures_bind]
  refine (ensures_detach h.toGrounded hoff).mono ?_
  rintro _ m₁ ⟨rfl, hd, hp₁⟩
  have hp : m₁.solver.passes = s.passes := hp₁.trans hpasses
  simp only
  unfold mend
  cases hout : node.output? with
  | none =>
    -- nothing was vacated, so nothing is left to do
    refine (ensures_pure _).2 ⟨h.detached hd, fun hlt => ?_⟩
    exact hd.rest h (hmend (hp ▸ hlt)) hout hp
  | some a =>
    -- once the walk has brought the graph to rest, the constraints that it found are added
    simp only [ensures_bind, ensures_ask]
    refine (ensures_strandedFrom_sound h hd hp hmend hout).mono ?_
    rintro r m₂ ⟨h₂, _⟩
    cases r with
    | ok found => exact ensures_readd hadd h₂
    | error e => exact h₂

end

/-! ## Adding -/

/-- Break a cycle at the constraint that closes it. -/
def breakCycle (remove : ConstraintId → SolveM W T Unit) (closing : ConstraintId) (claimed : VarId) :
    SolveM W T (Option ConstraintId) := do
  note (.cycleBroken closing claimed)
  count fun x => { x with cycles := x.cycles + 1 }
  changeConstraint closing fun x => { x with enabled := false }
  remove closing
  throw (.cycleDetected closing)

/-- Count a cycle and switch the constraint off that closes it. -/
def expel (closing : ConstraintId) (claimed : VarId) : SolveM W T Unit := do
  note (.cycleBroken closing claimed)
  count fun x => { x with cycles := x.cycles + 1 }
  changeConstraint closing fun x => { x with enabled := false }

/-- The constraint is expelled first, and then it is removed. -/
theorem breakCycle_eq (remove : ConstraintId → SolveM W T Unit) (closing : ConstraintId)
    (claimed : VarId) : breakCycle remove closing claimed =
      expel closing claimed >>= fun _ => remove closing >>= fun _ =>
        throw (.cycleDetected closing) := by
  simp only [breakCycle, expel, bind_assoc]

/-- Expelling a constraint runs nothing. -/
theorem expel_abstains (closing : ConstraintId) (claimed : VarId) :
    Abstains (W := W) (T := T) (expel closing claimed) :=
  .bind (.note rfl) fun _ => .bind (.count _) fun _ => .changeConstraint closing _

/-- What this comes to. -/
theorem ensures_expel (closing : ConstraintId) (claimed : VarId) :
    Ensures (expel closing claimed) m fun r m' =>
      (m.solver.constraintAt? closing = none ∧ (∃ e, r = .error e) ∧ m.solver.Alike m'.solver) ∨
      ∃ n, m.solver.constraintAt? closing = some n ∧ r = .ok () ∧
        SwitchedOff m.solver m'.solver closing n ∧ m'.solver.passes = m.solver.passes := by
  unfold expel
  simp only [ensures_bind, ensures_note, ensures_count, ensures_changeConstraint]
  have halike : m.solver.Alike { m.solver with
      metrics := { m.solver.metrics with cycles := m.solver.metrics.cycles + 1 } } :=
    ⟨fun _ => rfl, fun _ => rfl, rfl, rfl⟩
  rw [halike.constraintAt]
  cases hn : m.solver.constraintAt? closing with
  | none => exact .inl ⟨rfl, ⟨_, rfl⟩, halike⟩
  | some n => exact .inr ⟨n, rfl, trivial, switchedOff_of_alike halike hn, rfl⟩

/-- What enforcing an idle constraint in a pass comes to. -/
inductive Enforcement (remove : ConstraintId → SolveM W T Unit) (fuel : Nat) (mark : Mark)
    (c : ConstraintId) (node : Constraint W T) (m : Machine W T) :
    Except SolveError (Option ConstraintId) → Machine W T → Prop
  /-- No method may be used, and the constraint is required. -/
  | refused {m' : Machine W T} (hreq : node.definition.strength = .required)
    (halike : m.solver.Alike m'.solver)
    (hheld : m.solver.HeldBy mark node.definition.methods node.definition.strength)
    (hfaults : m'.solver.metrics.faults =
      (m.solver.metrics.cycles, m.solver.metrics.unsatisfiable + 1)) (hdeeds : m.NoDeed m') :
    Enforcement remove fuel mark c node m (.error (.unsatisfiableRequired c)) m'
  /-- No method may be used, and the constraint is left without one. -/
  | left {m' : Machine W T} (hreq : node.definition.strength ≠ .required)
    (halike : m.solver.Alike m'.solver)
    (hheld : m.solver.HeldBy mark node.definition.methods node.definition.strength)
    (hfaults : m'.solver.metrics.faults = m.solver.metrics.faults) (hdeeds : m.NoDeed m') :
    Enforcement remove fuel mark c node m (.ok none) m'
  /-- A method is put in force, everything downstream is recalculated, and the output is claimed. -/
  | enforced {m₁ m₂ : Machine W T} {i : Nat} {method : Method W T} {x : Variable T}
    (hi : m.solver.Installed m₁.solver mark c node i method x)
    (hpasses : m₁.solver.passes = m.solver.passes)
    (hfaults : m₁.solver.metrics.faults = m.solver.metrics.faults)
    (hsweep : exec (sweep mark fuel (.singleton c)) m₁ = some (.ok none, m₂))
    (hdeeds : m₁.deeds = .enforces c method.output :: m.deeds) :
    Enforcement remove fuel mark c node m (.ok x.determinedBy)
      { m₂ with solver := m₂.solver.modifyVariable method.output fun y => { y with mark := mark } }
  /-- A method is put in force that closes a cycle. -/
  | cycle {m₁ m₂ m' : Machine W T} {i : Nat} {method : Method W T} {x : Variable T}
    {closing : ConstraintId} {claimed : VarId} {r : Except SolveError (Option ConstraintId)}
    (hi : m.solver.Installed m₁.solver mark c node i method x)
    (hpasses : m₁.solver.passes = m.solver.passes)
    (hfaults : m₁.solver.metrics.faults = m.solver.metrics.faults)
    (hsweep : exec (sweep mark fuel (.singleton c)) m₁ = some (.ok (some (closing, claimed)), m₂))
    (hbreak : exec (breakCycle remove closing claimed) m₂ = some (r, m'))
    (hdeeds : m₁.deeds = .enforces c method.output :: m.deeds) :
    Enforcement remove fuel mark c node m r m'

/-- Whatever enforcing an idle constraint comes to is one of the four. -/
theorem ensures_enforcement (remove : ConstraintId → SolveM W T Unit) (fuel : Nat) (mark : Mark)
    (h : m.solver.WellFormed) (hnode : m.solver.constraintAt? c = some node)
    (hen : node.enabled = true) (hidle : node.enforcing = none) :
    Ensures (enforce remove fuel mark c) m (Enforcement remove fuel mark c node m) := by
  unfold enforce
  rw [ensures_bind]
  refine ((ensures_install h hnode hen hidle).and (install_does mark c m)).mono ?_
  rintro r m₁ ⟨⟨halike, hrefused, hheld⟩ | ⟨i, x, method, hi, rfl, hp₁, _, hf₁⟩, hworld, hdeeds⟩
  · -- no method is found
    unfold Refused at hrefused
    split at hrefused
    · next hreq =>
      obtain ⟨rfl, hfaults⟩ := hrefused
      exact .refused hreq halike hheld hfaults ⟨hworld, hdeeds⟩
    · next hreq =>
      obtain ⟨rfl, hfaults⟩ := hrefused
      exact (ensures_pure _).2 (.left hreq halike hheld hfaults ⟨hworld, hdeeds⟩)
  simp only
  rw [ensures_bind]
  intro r m₂ hsweep
  -- the sweep does not fail, and does not lose the output
  have hlive : ∀ k ∈ OrderedSet.singleton c, (m₁.solver.constraintAt? k).isSome := by
    intro k hk
    obtain rfl := OrderedSet.mem_singleton.1 hk
    rw [hi.constraintAt_self]
    rfl
  obtain ⟨closed, rfl⟩ := ensures_sweep_ok (h.installed hi) hlive r m₂ hsweep
  cases closed with
  | none =>
    have hr := sweep_repaints mark fuel _ m₁ _ m₂ hsweep
    obtain ⟨y, hy⟩ := Option.isSome_iff_exists.1 ((hr.live method.output).trans
      (show (m₁.solver.variableAt? method.output).isSome = true by
        rw [hi.variableAt, hi.output.1]; rfl))
    simp only
    rw [ensures_bind]
    refine .changeVariable hy ?_
    exact (ensures_pure _).2 (.enforced hi hp₁ hf₁ hsweep hdeeds)
  | some p => exact fun r m' hbreak => .cycle hi hp₁ hf₁ hsweep hbreak hdeeds

/-- A chain of displacements comes to whatever every single one leads to: `J` holds when a constraint
is about to be enforced, and `Q` when the chain ends. -/
theorem ensures_displace_of_enforce {remove : ConstraintId → SolveM W T Unit} {fuel steps : Nat}
    {mark : Mark} {J : ConstraintId → Machine W T → Prop}
    {Q : Except SolveError Unit → Machine W T → Prop}
    (hstep : ∀ c m, J c m → Ensures (enforce remove fuel mark c) m fun r m' =>
      match r with
      | .error e => Q (.error e) m'
      | .ok none => Q (.ok ()) m'
      | .ok (some k) => J k m')
    (hJ : J c m) : Ensures (displace remove fuel mark steps c) m Q := by
  -- the chain is as long as there is a constraint that was displaced
  induction steps generalizing m c with
  | zero => exact ensures_unfinished
  | succ steps ih =>
    unfold displace
    rw [ensures_bind]
    refine (hstep c m hJ).mono fun r m' hnext => ?_
    cases r with
    | error e => exact hnext
    | ok displaced =>
      cases displaced with
      | none => exact (ensures_pure _).2 hnext
      | some k => exact ih hnext

/-- To add a constraint is to displace whatever it displaces in a new pass. -/
theorem ensures_add_of_displace {fuel : Nat} {Q : Except SolveError Unit → Machine W T → Prop}
    (h : ∀ fuel, Ensures (displace (withdraw (add fuel) fuel) fuel (.ofPass (m.solver.passes + 1))
      fuel c) ⟨{ m.solver with passes := m.solver.passes + 1 }, m.world, m.journal⟩ Q) :
    Ensures (add fuel c) m Q := by
  cases fuel with
  | zero => exact ensures_unfinished
  | succ fuel =>
    unfold add nextMark
    simp only [ensures_bind, ensures_update, ensures_ask]
    exact h fuel

section

variable {s : Solver W T} {fuel i : Nat} {mark : Mark} {method : Method W T} {x : Variable T}
  (h : s.WellFormed) (hi : s.Installed m.solver mark c node i method x)
include h hi

/-- What a sweep from a constraint that was just installed comes to, if all constraints met the condition
before and the deeds done since are those of the constraint. -/
theorem ensures_sweep_renews {fine : Solver W T → Ledger T → ConstraintId → Prop}
    (hfine : Solver.Renewable fine) {l : Ledger T} (hl : ∀ k, k ≠ c → m.ledger k = l k)
    (hall : ∀ k, fine s l k) :
    Ensures (sweep mark fuel (.singleton c)) m fun r m' => m.solver.Walked m'.solver ∧
      Solver.Swept (fine m'.solver m'.ledger) mark m.solver (.singleton c) r := by
  refine ensures_sweep hfine (h.installed hi) ?_ ?_
  · intro k hk
    obtain rfl := OrderedSet.mem_singleton.1 hk
    rw [hi.constraintAt_self]
    rfl
  · intro k hk
    rw [OrderedSet.mem_singleton]
    by_contra hne
    exact hk (hfine.installed hi (hl k hne) (hall k) hne)

/-- What a sweep comes to if the graph was settled before the installation. -/
theorem ensures_sweep_installed (hsettled : ∀ k, s.Settled cells k) :
    Ensures (sweep mark fuel (.singleton c)) m fun r m' => m.solver.Walked m'.solver ∧
      Solver.Swept (m'.solver.Settled cells) mark m.solver (.singleton c) r :=
  ensures_sweep_renews h hi (Solver.settled_renewable fun _ => cells) (fun _ _ => rfl) hsettled

end

section

variable {remove : ConstraintId → SolveM W T Unit} (hremove : RemovesSoundly cells remove)
include hremove

/-- Breaking a cycle leaves the graph sound. -/
theorem ensures_breakCycle {closing : ConstraintId} {claimed : VarId} (h : m.solver.WellFormed)
    (hmend : m.solver.passes < 2 ^ 64 → ∀ n, m.solver.constraintAt? closing = some n →
      m.solver.Mendable cells n)
    (hlive : m.solver.passes < 2 ^ 64 → (m.solver.constraintAt? closing).isSome) :
    Ensures (breakCycle remove closing claimed) m fun r m' =>
      m'.solver.Sound cells ∧ ∀ k, r ≠ .ok (some k) := by
  rw [breakCycle_eq, ensures_bind]
  refine (ensures_expel closing claimed).mono ?_
  rintro _ m₁ (⟨hn, ⟨e, rfl⟩, halike⟩ | ⟨n, hn, rfl, hoff, hp⟩)
  · -- the constraint does not exist, which cannot be as long as marks are told apart
    refine ⟨⟨h.repaints halike.repaints, fun hlt => ?_⟩, by simp⟩
    have hsome := hlive (halike.passes ▸ hlt)
    rw [hn] at hsome
    cases hsome
  · simp only
    rw [ensures_bind]
    refine (hremove m₁ m.solver closing n h hoff hp fun hlt => hmend hlt n hn).mono ?_
    intro r m' hm'
    cases r with
    | ok _ => exact (ensures_throw _).2 ⟨hm', by simp⟩
    | error _ => exact ⟨hm', by simp⟩

/-- Enforcing a constraint leaves the graph sound, and leaves the displaced constraint to be
enforced in the same pass. -/
theorem ensures_enforce {fuel : Nat} {mark : Mark} (h : m.solver.WellFormed)
    (hidle : m.solver.Idle c) (hpass : m.solver.passes < 2 ^ 64 → m.solver.InPass cells mark c) :
    Ensures (enforce remove fuel mark c) m fun r m' => m'.solver.Sound cells ∧
      ∀ k, r = .ok (some k) → m'.solver.Idle k ∧
        (m'.solver.passes < 2 ^ 64 → m'.solver.InPass cells mark k) := by
  obtain ⟨node, hnode, hen, hnone⟩ := hidle
  refine (ensures_enforcement remove fuel mark h hnode hen hnone).mono fun r m' hcase => ?_
  have hsound : m.solver.Alike m'.solver → m'.solver.Sound cells := fun halike =>
    ⟨h.repaints halike.repaints, fun hlt => halike.rest h (hpass (halike.passes ▸ hlt)).toRest⟩
  cases hcase with
  -- nothing has happened to the graph, so it is as sound as before
  | refused _ halike => exact ⟨hsound halike, nofun⟩
  | left _ halike => exact ⟨hsound halike, nofun⟩
  | @enforced m₁ m₂ i method x hi hp₁ _ hsweep _ =>
    have hr := sweep_repaints mark fuel _ m₁ _ m₂ hsweep
    have h₂ := (h.installed hi).repaints hr
    have hp₂ : m₂.solver.passes = m.solver.passes := hr.passes.trans hp₁
    -- nothing is left to be recalculated, and the output may be claimed
    have hrest : m₂.solver.passes < 2 ^ 64 → m₂.solver.Rest cells := by
      intro hlt
      have hpass := hpass (hp₂ ▸ hlt)
      obtain ⟨hw, hswept⟩ := ensures_sweep_installed h hi hpass.settled _ m₂ hsweep
      exact hpass.swept hi h hp₁ hw hswept
    refine ⟨⟨h₂.marked _ _, fun hlt => ?_⟩, fun k hk => ?_⟩
    · refine (hrest hlt).marked _ _ ?_
      rw [hp₂]
      exact (hpass (hp₂ ▸ hlt)).drawn
    · have hdis : x.determinedBy = some k := Except.ok.inj hk
      refine ⟨?_, fun hlt => (hpass (hp₂ ▸ hlt)).displaced hi h hp₁ hr (hrest hlt) hdis⟩
      obtain ⟨n, hn, hidle⟩ := hi.displaced_idle h hdis
      exact ⟨n, (hr.constraintAt k).trans hn, hidle⟩
  | @cycle m₁ m₂ _ i method x closing a _ hi hp₁ _ hsweep hbreak _ =>
    have hr := sweep_repaints mark fuel _ m₁ _ m₂ hsweep
    have h₂ := (h.installed hi).repaints hr
    have hp₂ : m₂.solver.passes = m.solver.passes := hr.passes.trans hp₁
    -- what the sweep has come to as long as the marks have not started again
    have hswept : m₂.solver.passes < 2 ^ 64 → m₁.solver.Walked m₂.solver ∧
        Solver.Swept (m₂.solver.Settled cells) mark m₁.solver (.singleton c)
          (.ok (some (closing, a))) :=
      fun hlt => ensures_sweep_installed h hi (hpass (hp₂ ▸ hlt)).settled _ m₂ hsweep
    obtain ⟨hsound', hnot⟩ := ensures_breakCycle hremove h₂
      (fun hlt n hn => (hpass (hp₂ ▸ hlt)).mendable hi h hp₁ (hswept hlt).1 hn (hswept hlt).2)
      (fun hlt => by
        obtain ⟨_, ⟨n, hn, _⟩, _⟩ := hswept hlt
        rw [hr.constraintAt, hn]
        rfl) r m' hbreak
    exact ⟨hsound', fun k hk => absurd hk (hnot k)⟩

/-- Enforcing a constraint and everything that is displaced in turn leaves the graph sound. -/
theorem ensures_displace {fuel : Nat} {mark : Mark} {steps : Nat} (h : m.solver.Sound cells)
    (hidle : m.solver.Idle c) (hpass : m.solver.passes < 2 ^ 64 → m.solver.InPass cells mark c) :
    Ensures (displace remove fuel mark steps c) m fun _ m' => m'.solver.Sound cells := by
  refine ensures_displace_of_enforce (J := fun c m => m.solver.Sound cells ∧ m.solver.Idle c ∧
    (m.solver.passes < 2 ^ 64 → m.solver.InPass cells mark c)) ?_ ⟨h, hidle, hpass⟩
  rintro c m ⟨h, hidle, hpass⟩
  refine (ensures_enforce hremove h.toWellFormed hidle hpass).mono ?_
  rintro r m' ⟨hsound, hnext⟩
  match r, hnext with
  | .error _, _ => exact hsound
  | .ok none, _ => exact hsound
  -- the displaced constraint is enforced in the same pass
  | .ok (some k), hnext => exact ⟨hsound, hnext k rfl⟩

end

/-- Adding an idle constraint leaves the graph sound. -/
theorem add_sound (cells : Prop) (fuel : Nat) : AddsSoundly (W := W) (T := T) cells (add fuel) := by
  -- with less fuel adding is sound, and so is the removal that it calls
  induction fuel with
  | zero => exact fun _ _ _ _ => ensures_unfinished
  | succ fuel ih =>
    intro m c h hidle
    unfold add nextMark
    simp only [ensures_bind, ensures_update, ensures_ask]
    refine ensures_displace (ensures_withdraw_sound ih fuel) ?_ ?_ ?_
    · exact h.nextPass
    · exact hidle
    · exact fun hlt => h.inPass hlt c

end SolveM

end DeltaBlue
