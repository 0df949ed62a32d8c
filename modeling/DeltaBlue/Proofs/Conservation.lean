import DeltaBlue.Call
import DeltaBlue.Proofs.Passes
import DeltaBlue.Proofs.Upkeep

/-!
# What the operations conserve

Enabling and disabling lead from a sound graph to a sound graph, whether they succeed or fail, by a
quiet change (`Keeps`). What else they lead to is shown case by case, without looking into them again
(`ensures_enable_cases`, `ensures_disable_cases`): a constraint enters the graph and is settled, or it
is switched off and leaves the graph, which has come to rest before anything is added again
(`Solver.Vacated`, `ensures_leave_cases`).

Making and forgetting things that are not part of the graph is done aside, and leads from a sound graph
to a sound graph too; an observer may be forgotten if no other constraint mentions its sink.
-/

namespace DeltaBlue

/-- The definition of an observer mentions its output. -/
theorem Draft.mem_vars_of_define_observer {W T : Type} {strength : Strength} {text : String}
    {sink : VarId} {inputs : List VarId} {f : Observe W T} {d : Definition W T}
    (h : define strength [.label text, .observer sink inputs f] = .ok d) : sink ∈ d.vars := by
  unfold define at h
  simp only [registerAll, register] at h
  generalize hoffer : offer _ (.observe sink inputs f) = offered at h
  obtain ⟨draft, fault⟩ := offered
  cases fault with
  | some e => cases h
  | none =>
    have hm : Method.observe sink inputs f ∈ d.methods := by
      rw [methods_of_build h, methods_of_offer hoffer]
      exact List.mem_append_right _ (List.mem_singleton_self _)
    exact Definition.output_mem_vars hm

namespace Solver

variable {W T : Type}

/-- No constraint but `c` mentions the sink of `c`. -/
def OwnsSink (s : Solver W T) (c : ConstraintId) : Prop :=
  ∀ {node sink}, s.constraintAt? c = some node → node.sink = some sink →
    ∀ {k n}, k ≠ c → s.constraintAt? k = some n → sink ∉ n.definition.vars

/-- The constraints are the same, with the same definitions and sinks. -/
def Redeclares (s s' : Solver W T) : Prop :=
  ∀ c, (s'.constraintAt? c).map Constraint.declared = (s.constraintAt? c).map Constraint.declared

/-- Keeping the declarations twice is keeping them. -/
theorem Redeclares.transitive : SolveM.Transitive (Redeclares (W := W) (T := T)) where
  refl _ _ := rfl
  trans h h' c := (h' c).trans (h c)

/-- What the storing of a constraint comes to: it is found under a key that found nothing before, or
nothing has changed. -/
def Stored (s s' : Solver W T) (node : Constraint W T) : Except SolveError ConstraintId → Prop
  | .ok c => s.constraintAt? c = none ∧
    ∀ k, s'.constraintAt? k = if k = c then some node else s.constraintAt? k
  | .error _ => ∀ k, s'.constraintAt? k = s.constraintAt? k

/-- What the making of a variable comes to: it is found under a key that found nothing before, or
nothing has changed. -/
def Made (s s' : Solver W T) (x : Variable T) : Except SolveError VarId → Prop
  | .ok v => s.variableAt? v = none ∧
    ∀ u, s'.variableAt? u = if u = v then some x else s.variableAt? u
  | .error _ => ∀ u, s'.variableAt? u = s.variableAt? u

/-- `c` is forgotten together with its sink; all other constraints declare the same, and the other
variables exist as before. -/
structure Forgets (s s' : Solver W T) (c : ConstraintId) : Prop where
  /-- The other constraints are the same, with the same definitions and sinks. -/
  declared : ∀ k, (s'.constraintAt? k).map Constraint.declared =
    if k = c then none else (s.constraintAt? k).map Constraint.declared
  /-- The other variables are the same. -/
  live : ∀ v, (s'.variableAt? v).isSome = true ↔
    (s.variableAt? v).isSome = true ∧ (s.constraintAt? c).bind Constraint.sink ≠ some v

/-- The constraints are the same, with the same definitions and sinks, and so are the variables. -/
structure Stands (s s' : Solver W T) : Prop where
  /-- The constraints are the same. -/
  declared : s.Redeclares s'
  /-- The variables are the same. -/
  live : ∀ v, (s'.variableAt? v).isSome = (s.variableAt? v).isSome

/-- Keeping what exists and what is declared twice is keeping it. -/
theorem Stands.transitive : SolveM.Transitive (Stands (W := W) (T := T)) where
  refl _ := ⟨Redeclares.transitive.refl _, fun _ => rfl⟩
  trans h h' :=
    { declared := Redeclares.transitive.trans h.declared h'.declared
      live := fun v => (h'.live v).trans (h.live v) }

/-- `c` has left the graph, the graph has come to rest, and as long as the marks have not started again
the idle constraints downstream of what `c` determined are on the list. -/
structure Vacated (cells : Prop) (s s₁ s₂ : Solver W T) (c : ConstraintId) (node : Constraint W T)
    (cs : List ConstraintId) : Prop where
  /-- The constraint has left the graph. -/
  detached : s.Detached s₁ c node
  /-- Then variables were repainted. -/
  repaints : s₁.Repaints s₂
  /-- The graph has come to rest. -/
  sound : s₂.Sound cells
  /-- No pass was begun. -/
  passes : s₂.passes = s.passes
  /-- The constraints on the list exist. -/
  live : ∀ k ∈ cs, (s₂.constraintAt? k).isSome
  /-- The idle constraints downstream are on the list. -/
  finds : s₂.passes < 2 ^ 64 → ∀ a, node.output? = some a → ∀ v, s₁.Reaches a v →
    ∀ k, s₁.Idle k → s₁.Mentions k v → k ∈ cs

variable {s s' s'' : Solver W T} {c : ConstraintId}

/-- Adding and removing makes and forgets nothing and declares nothing anew. -/
theorem Propagates.stands (h : s.Propagates s') : s.Stands s' := ⟨h.declared, h.live⟩

/-- A sink is part of what is declared, so it stays. -/
theorem Stands.sink_eq (h : s.Stands s') (c : ConstraintId) :
    (s'.constraintAt? c).bind Constraint.sink = (s.constraintAt? c).bind Constraint.sink := by
  have hc := congrArg (Option.bind · Prod.snd) (h.declared c)
  simp only [Option.bind_map] at hc
  exact hc

/-- What is forgotten was not changed before in what it declares. -/
theorem Stands.forgets (h : s.Stands s') (h' : s'.Forgets s'' c) : s.Forgets s'' c := by
  refine ⟨fun k => (h'.declared k).trans ?_, fun v => (h'.live v).trans ?_⟩
  · rw [h.declared]
  · rw [h.live, h.sink_eq]

/-- What is forgotten is not found. -/
theorem Forgets.gone (h : s.Forgets s' c) : s'.constraintAt? c = none := by
  have hc := h.declared c
  rwa [if_pos rfl, Option.map_eq_none_iff] at hc

/-- Forgetting a constraint leaves the declarations of the others. -/
theorem declared_eraseConstraint (c k : ConstraintId) (s : Solver W T) :
    ((s.constraints.erase c).get? k).map Constraint.declared =
      if k = c then none else (s.constraintAt? k).map Constraint.declared := by
  rw [Arena.get?_erase]
  by_cases hk : k = c
  · rw [if_pos hk, if_pos hk]
    rfl
  · rw [if_neg hk, if_neg hk]
    rfl

/-- A constraint without a sink is forgotten by itself. -/
theorem forgets_eraseConstraint (h : (s.constraintAt? c).bind Constraint.sink = none) :
    s.Forgets { s with constraints := s.constraints.erase c } c where
  declared k := declared_eraseConstraint c k s
  live v := by
    rw [h]
    exact (and_iff_left nofun).symm

/-- Whether a sink is mentioned elsewhere is a matter of the declarations. -/
theorem OwnsSink.redeclares (h : s.OwnsSink c) (hr : s.Redeclares s') : s'.OwnsSink c := by
  -- a constraint of the new graph is one of the old, declared alike
  have hof : ∀ {k n'}, s'.constraintAt? k = some n' →
      ∃ n, s.constraintAt? k = some n ∧ n'.definition = n.definition ∧ n'.sink = n.sink := by
    intro k n' hn'
    have hk := hr k
    rw [hn', Option.map_some] at hk
    obtain ⟨n, hn, he⟩ := Option.map_eq_some_iff.1 hk.symm
    simp only [Constraint.declared, Prod.mk.injEq] at he
    exact ⟨n, hn, he.1.symm, he.2.symm⟩
  intro node' sink hnode' hsink k n' hk hn'
  obtain ⟨node, hnode, _, he⟩ := hof hnode'
  obtain ⟨n, hn, hd, _⟩ := hof hn'
  rw [hd]
  exact h hnode (he ▸ hsink) hk hn

end Solver

namespace SolveM

open Solver (Sound Quiet Beside Propagates Redeclares Stands)

variable {W T α : Type} {cells : Prop}

/-- From a sound graph the operation leads to a sound graph, by a quiet change. -/
def Keeps (cells : Prop) (op : SolveM W T α) : Prop :=
  ∀ m, m.solver.Sound cells →
    Ensures op m fun _ m' => m'.solver.Sound cells ∧ m.solver.Quiet m'.solver

/-! ## Enabling and disabling -/

/-- A relation that disabling `c` obeys: besides what adding and removing do, `c` is switched off and
the change is counted. -/
structure LeaveFrame (c : ConstraintId) (ρ : Solver W T → Solver W T → Prop) : Prop
    extends PassFrame ρ where
  /-- The constraint is switched off. -/
  onLeave : ∀ s, ρ s (s.modifyConstraint c fun x => { x with enabled := false })
  /-- A change of the set of enabled constraints is counted. -/
  onChange : ∀ s, ρ s { s with changes := s.changes + 1 }

/-- A relation that enabling `c` obeys: besides what disabling it does, `c` is switched on. -/
structure EnterFrame (c : ConstraintId) (ρ : Solver W T → Solver W T → Prop) : Prop
    extends LeaveFrame c ρ where
  /-- The constraint is switched on, with no method in force. -/
  onEnter : ∀ s, ρ s (s.modifyConstraint c fun x => { x with enabled := true, enforcing := none })

/-- A constraint that was left without a method is added again if it still has none, unless it is the
one that was enabled. This does not fail. -/
theorem ensures_restore_cases {m : Machine W T} {fuel : Nat} {c failed : ConstraintId}
    {Q : Except SolveError Unit → Machine W T → Prop}
    (hadd : failed ≠ c → m.solver.Idle failed →
      Ensures (add fuel failed) m fun _ m' => ∀ journal,
        m'.NoDeed { m' with journal := journal } → Q (.ok ()) { m' with journal := journal })
    (hskip : (failed ≠ c → ¬ m.solver.Idle failed) → Q (.ok ()) m) :
    Ensures (restore fuel c failed) m Q := by
  unfold restore
  simp only [ensures_bind, ensures_ask]
  split
  · next hstranded =>
    simp only [ensures_bind, ensures_attempt]
    refine (hadd hstranded.1 (Solver.idle_iff_any.2 hstranded.2)).mono fun r m₁ hQ => ?_
    cases r with
    | ok _ => exact (ensures_pure _).2 (hQ m₁.journal (.refl _))
    | error e => exact (ensures_note _).2 (hQ _ (.note rfl))
  · next hnot =>
    exact (ensures_pure _).2 (hskip fun hne hidle => hnot ⟨hne, Solver.idle_iff_any.1 hidle⟩)

/-- Restoring a constraint that was left without a method leaves the graph sound. -/
theorem ensures_restore {m : Machine W T} {fuel : Nat} {c failed : ConstraintId}
    (h : m.solver.Sound cells) :
    Ensures (restore fuel c failed) m fun _ m' => m'.solver.Sound cells :=
  ensures_restore_cases (fun _ hidle => (add_sound cells fuel m failed h hidle).mono fun _ _ h₁ _ _ => h₁)
    fun _ => h

/-- Restoring a constraint is adding it at most. -/
theorem restore_obeys {ρ : Solver W T → Solver W T → Prop} (hρ : PassFrame ρ) (fuel : Nat)
    (c failed : ConstraintId) : Obeys ρ (restore fuel c failed) := by
  have hT := hρ.toTransitive
  refine .bind hT (.ask hT _) fun stranded => ?_
  split
  · refine .bind hT (.attempt (add_obeys hρ fuel failed)) fun r => ?_
    cases r with
    | ok _ => exact .pure hT _
    | error e => exact .note hT _
  · exact .pure hT _

/-- A constraint that was switched off leaves the graph, whether it has a method in force or not, and
what this leaves stranded is added again. A walk that does not come to its end fails. -/
theorem ensures_leave_cases {ρ : Solver W T → Solver W T → Prop} (hρ : ForceFrame ρ)
    {m : Machine W T} {s : Solver W T} {fuel : Nat} {c : ConstraintId} {node : Constraint W T}
    {Q : Except SolveError Unit → Machine W T → Prop} (h : s.Sound cells)
    (hoff : SwitchedOff s m.solver c node) (hp : m.solver.passes = s.passes)
    (hfail : ∀ e s₁ m₂, s.Vacated cells s₁ m₂.solver c node [] → ρ m.solver m₂.solver →
      ¬ m₂.solver.passes < 2 ^ 64 → Q (.error e) m₂)
    (hreadd : ∀ s₁ m₂ cs, s.Vacated cells s₁ m₂.solver c node cs → ρ m.solver m₂.solver →
      Ensures (readd (add fuel) cs none) m₂ Q) :
    Ensures (if node.isEnforcing then remove fuel c else deregister c) m Q := by
  have hwf := h.toWellFormed
  -- without an output nothing is downstream, and nothing has to be recalculated
  have hlone : ∀ m₁ : Machine W T, s.Detached m₁.solver c node → node.output? = none →
      m₁.solver.passes = s.passes → ρ m.solver m₁.solver → Q (.ok ()) m₁ := by
    intro m₁ hd hout hp₁ hρ₁
    refine (ensures_pure _).1 (hreadd m₁.solver m₁ [] ⟨hd, Solver.Repaints.transitive.refl _,
      ⟨hwf.detached hd, fun hlt => ?_⟩, hp₁, nofun, fun _ a ha => ?_⟩ hρ₁)
    · exact hd.rest hwf ((h.rest (hp₁ ▸ hlt)).mendable node) hout hp₁
    · rw [hout] at ha
      cases ha
  split
  · -- the constraint has a method in force, so its output is released and the walk begins there
    unfold remove
    rw [withdraw_eq, ensures_bind]
    refine ((ensures_detach h.toGrounded hoff).and (detach_obeys hρ c m)).mono ?_
    rintro _ m₁ ⟨⟨rfl, hd, hp₁⟩, hρ₁⟩
    have hp₁ := hp₁.trans hp
    simp only
    unfold mend
    cases hout : node.output? with
    | none => exact (ensures_pure _).2 (hlone m₁ hd hout hp₁ hρ₁)
    | some a =>
      simp only [ensures_bind, ensures_ask]
      refine ((ensures_strandedFrom_sound hwf hd hp₁ (fun hlt => (h.rest hlt).mendable node)
        hout).and (strandedFrom_obeys hρ.toWalkFrame fuel _ _ m₁)).mono ?_
      rintro r m₂ ⟨⟨h₂, hr, hfound⟩, hρ₂⟩
      have hp₂ := hr.passes.trans hp₁
      cases r with
      | error e =>
        -- as long as marks are told apart the walk does not fail
        have hnot : ¬ m₂.solver.passes < 2 ^ 64 := by
          intro hlt
          obtain ⟨_, hok, _⟩ := hfound (hp₂ ▸ hlt)
          cases hok
        exact hfail e m₁.solver m₂ ⟨hd, hr, h₂, hp₂, nofun, fun hlt => absurd hlt hnot⟩
          (hρ.trans hρ₁ hρ₂) hnot
      | ok found =>
        refine hreadd m₁.solver m₂ _ ⟨hd, hr, h₂, hp₂, fun k hk => (Solver.mem_rank.1 hk).2, ?_⟩
          (hρ.trans hρ₁ hρ₂)
        intro hlt a' ha' v hreach k hidle hv
        obtain ⟨_, hok, hfinds⟩ := hfound (hp₂ ▸ hlt)
        obtain rfl := Except.ok.inj hok
        obtain rfl := Option.some.inj (hout.symm.trans ha')
        have hlive : (m₂.solver.constraintAt? k).isSome := by
          rw [hr.constraintAt]
          exact hidle.live
        -- what the walk has found is ranked, which loses none that exists
        exact Solver.mem_rank.2
          ⟨hfinds a (OrderedSet.mem_singleton.2 rfl) v hreach k hidle hv, hlive⟩
  · next hidle =>
    rw [Constraint.isEnforcing, Option.not_isSome_iff_eq_none] at hidle
    refine ((ensures_deregister hoff hidle).and (deregister_obeys hρ c m)).mono ?_
    rintro _ m₁ ⟨⟨rfl, hd, hp₁, _⟩, hρ₁⟩
    exact hlone m₁ hd (Constraint.output?_eq_none hidle) (hp₁.trans hp) hρ₁

/-- A constraint that was switched off leaves a sound graph sound. -/
theorem ensures_leave {m : Machine W T} {s : Solver W T} {fuel : Nat} {c : ConstraintId}
    {node : Constraint W T} (h : s.Sound cells) (hoff : SwitchedOff s m.solver c node)
    (hp : m.solver.passes = s.passes) :
    Ensures (if node.isEnforcing then remove fuel c else deregister c) m
      fun _ m' => m'.solver.Sound cells :=
  ensures_leave_cases propagates_frame.toForceFrame h hoff hp (fun _ _ _ hv _ _ => hv.sound)
    fun _ _ _ hv _ => ensures_readd (add_sound cells fuel) hv.sound

/-- A constraint that is switched off is removed if it had a method in force, and else
deregistered. -/
theorem leave_obeys {ρ : Solver W T → Solver W T → Prop} (hρ : PassFrame ρ) (fuel : Nat)
    (c : ConstraintId) (node : Constraint W T) :
    Obeys ρ (if node.isEnforcing then remove fuel c else deregister c) := by
  split
  · exact remove_obeys hρ fuel c
  · exact deregister_obeys hρ.toForceFrame c

/-- To take back the enabling of a constraint, it is switched off and leaves the graph, and the
constraint that was left without a method is restored, whatever has come of this. -/
theorem ensures_rollBackEnable_cases {m : Machine W T} {fuel : Nat} {c failed : ConstraintId}
    {Q : Except SolveError Unit → Machine W T → Prop}
    (hnone : m.solver.constraintAt? c = none → ∀ journal, m.NoDeed { m with journal := journal } →
      Q (.ok ()) { m with journal := journal })
    (hsome : ∀ node m₁, m.solver.constraintAt? c = some node →
      SwitchedOff m.solver m₁.solver c node → m₁.solver.passes = m.solver.passes →
      m₁.solver.metrics = m.solver.metrics → m.NoDeed m₁ →
      Ensures (if node.isEnforcing then remove fuel c else deregister c) m₁ fun _ m₂ =>
        ∀ journal, m₂.NoDeed { m₂ with journal := journal } →
          Ensures (restore fuel c failed) { m₂ with journal := journal } Q) :
    Ensures (rollBackEnable fuel c failed) m Q := by
  unfold rollBackEnable
  simp only [ensures_bind, ensures_note, ensures_ask]
  cases hnode : m.solver.constraintAt? c with
  | none => exact (ensures_pure _).2 (hnone hnode _ (.note rfl))
  | some node =>
    simp only [ensures_bind]
    refine .changeConstraint hnode ?_
    simp only [ensures_attempt]
    have hnote : m.NoDeed { m with journal := .enableRolledBack failed c :: m.journal } := .note rfl
    refine (hsome node ⟨_, m.world, _⟩ hnode (switchedOff_modifyConstraint hnode) rfl rfl
      ⟨rfl, hnote.deeds⟩).mono fun undo m₂ hrest => ?_
    -- a failure to leave is noted, and the restoring goes on
    cases undo with
    | ok _ => exact hrest m₂.journal (.refl _)
    | error e =>
      simp only [ensures_bind, ensures_note]
      exact hrest _ (.note rfl)

/-- This does not fail. -/
theorem ensures_rollBackEnable_ok {m : Machine W T} {fuel : Nat} {c failed : ConstraintId} :
    Ensures (rollBackEnable fuel c failed) m fun r _ => r = .ok () :=
  ensures_rollBackEnable_cases (fun _ _ _ => rfl) fun _ _ _ _ _ _ _ _ _ _ _ _ =>
    ensures_restore_cases (fun _ _ _ _ _ _ _ => rfl) fun _ => rfl

/-- Taking back the enabling of a constraint keeps the graph sound. -/
theorem ensures_rollBackEnable {m : Machine W T} {fuel : Nat} {c failed : ConstraintId}
    (h : m.solver.Sound cells) :
    Ensures (rollBackEnable fuel c failed) m fun _ m' => m'.solver.Sound cells :=
  ensures_rollBackEnable_cases (fun _ _ _ => h) fun _ _ _ hoff hp _ _ =>
    (ensures_leave h hoff hp).mono fun _ _ h₁ _ _ => ensures_restore h₁

/-- Taking back the enabling of `c` switches it off, and else only adds and removes. -/
theorem rollBackEnable_obeys {ρ : Solver W T → Solver W T → Prop} (hρ : PassFrame ρ) (fuel : Nat)
    {c : ConstraintId} (hoff : ∀ s, ρ s (s.modifyConstraint c fun x => { x with enabled := false }))
    (failed : ConstraintId) : Obeys ρ (rollBackEnable fuel c failed) := by
  have hT := hρ.toTransitive
  unfold rollBackEnable
  refine .bind hT (.note hT _) fun _ => .bind hT (.ask hT _) fun node => ?_
  cases node with
  | none => exact .pure hT _
  | some node =>
    refine .bind hT (.changeConstraint hT hoff) fun _ => ?_
    refine .bind hT (.attempt (leave_obeys hρ fuel c node)) fun undo => ?_
    cases undo with
    | ok _ => exact restore_obeys hρ fuel c failed
    | error e => exact .bind hT (.note hT _) fun _ => restore_obeys hρ fuel c failed

/-- Settling a constraint adds it, and takes its enabling back at most. -/
theorem settle_obeys {ρ : Solver W T → Solver W T → Prop} (hρ : PassFrame ρ) (fuel : Nat)
    {c : ConstraintId}
    (hoff : ∀ s, ρ s (s.modifyConstraint c fun x => { x with enabled := false })) :
    Obeys ρ (settle fuel c) := by
  have hT := hρ.toTransitive
  refine .bind hT (.attempt (add_obeys hρ fuel c)) fun r => ?_
  -- the enabling stands, is taken back, or fails in another way
  split
  · exact .pure hT _
  · exact .bind hT (rollBackEnable_obeys hρ fuel hoff _) fun _ => .throw hT _
  · exact .throw hT _

/-- To settle a constraint is to add it, and to take its enabling back if this leaves a required
constraint without a method. -/
theorem ensures_settle_cases {m : Machine W T} {fuel : Nat} {c : ConstraintId}
    {P Q : Except SolveError Unit → Machine W T → Prop} (hadd : Ensures (add fuel c) m P)
    (hok : ∀ m', P (.ok ()) m' → Q (.ok ()) m')
    (hback : ∀ failed m₁, P (.error (.unsatisfiableRequired failed)) m₁ →
      Ensures (rollBackEnable fuel c failed) m₁ fun _ m' =>
        Q (.error (.unsatisfiableRequired failed)) m')
    (herror : ∀ e m', (∀ failed, e ≠ .unsatisfiableRequired failed) → P (.error e) m' →
      Q (.error e) m') : Ensures (settle fuel c) m Q := by
  unfold settle
  rw [ensures_bind, ensures_attempt]
  refine hadd.mono fun r m₁ hP => ?_
  simp only
  split
  · exact (ensures_pure _).2 (hok m₁ hP)
  · next failed =>
    rw [ensures_bind]
    refine ((hback failed m₁ hP).and ensures_rollBackEnable_ok).mono ?_
    rintro _ m' ⟨hQ, rfl⟩
    exact (ensures_throw _).2 hQ
  · next e hne =>
    exact (ensures_throw _).2 (herror e m₁ (fun failed he => hne failed (he ▸ rfl)) hP)

/-- Settling a constraint leaves the graph sound, whatever comes of it. -/
theorem ensures_settle {m : Machine W T} {fuel : Nat} {c : ConstraintId}
    (h : m.solver.Sound cells) (hidle : m.solver.Idle c) :
    Ensures (settle fuel c) m fun _ m' => m'.solver.Sound cells :=
  ensures_settle_cases (add_sound cells fuel m c h hidle) (fun _ => id)
    (fun _ _ h₁ => ensures_rollBackEnable h₁) fun _ _ _ => id

/-- Make a constraint part of the graph, and count the change. -/
def enter (c : ConstraintId) : SolveM W T Unit := do
  changeConstraint c fun x => { x with enabled := true, enforcing := none }
  register c
  update fun s => { s with changes := s.changes + 1 }
  count fun x => { x with enables := x.enables + 1 }
  note (.enabling c)

/-- Entering the graph runs nothing. -/
theorem enter_abstains (c : ConstraintId) : Abstains (W := W) (T := T) (enter c) :=
  .bind (.changeConstraint c _) fun _ => .bind (register_abstains c) fun _ =>
    .bind (.update _) fun _ => .bind (.count _) fun _ => .note rfl

/-- A constraint that is not enabled enters the graph and is settled. -/
theorem enable_eq (fuel : Nat) (c : ConstraintId) :
    (enable fuel c : SolveM W T Unit) =
      getConstraint c >>= fun node =>
        if node.enabled then pure () else enter c >>= fun _ => settle fuel c := by
  unfold enable enter
  simp only [bind_assoc]

/-- A constraint that is not enabled enters the graph, and the change is counted. -/
theorem ensures_enter {m : Machine W T} {c : ConstraintId} {node : Constraint W T}
    (h : m.solver.Sound cells) (hnode : m.solver.constraintAt? c = some node)
    (hoff : node.enabled = false) :
    Ensures (enter c) m fun r m' => r = .ok () ∧ m'.solver.Sound cells ∧
      m.solver.Entered m'.solver c node ∧ m'.solver.passes = m.solver.passes ∧
      m'.solver.changes = m.solver.changes + 1 ∧
      m'.solver.metrics.faults = m.solver.metrics.faults := by
  unfold enter
  -- switching on and registering succeed, and the constraint is part of the graph then
  have hentered := ensures_register h.toGrounded hnode hoff (Q := fun r m' => r = .ok () ∧
    m.solver.Entered m'.solver c node ∧ m'.solver.passes = m.solver.passes ∧
    m'.solver.changes = m.solver.changes ∧ m'.solver.metrics.faults = m.solver.metrics.faults)
    fun m' he hp hc hf => ⟨rfl, he, hp, hc, hf⟩
  rw [ensures_bind]
  refine ((ensures_bind _ _).1 hentered).mono fun r m₁ h₁ => ?_
  -- switching on does not fail, since the constraint exists
  cases r with
  | error e => cases h₁.1
  | ok _ =>
    rw [ensures_bind]
    refine h₁.mono ?_
    rintro _ m₂ ⟨rfl, he, hp, hc, hf⟩
    simp only [ensures_bind, ensures_update, ensures_count, ensures_note]
    have halike : ({ m₂.solver with changes := m₂.solver.changes + 1 } : Solver W T).Alike
        { m₂.solver with
          changes := m₂.solver.changes + 1
          metrics := { m₂.solver.metrics with enables := m₂.solver.metrics.enables + 1 } } :=
      ⟨fun _ => rfl, fun _ => rfl, rfl, rfl⟩
    refine ⟨trivial, ((h.entered he hp).changed (m₂.solver.changes + 1)).alike halike, ?_, hp,
      congrArg (· + 1) hc, hf⟩
    exact ⟨he.before, he.constraintAt, he.variableAt⟩

/-- A constraint that is enabled enters the graph, the change is counted, and the constraint is
settled. -/
theorem ensures_enable {m : Machine W T} {fuel : Nat} {c : ConstraintId} {node : Constraint W T}
    {Q : Except SolveError Unit → Machine W T → Prop} (h : m.solver.Sound cells)
    (hnode : m.solver.constraintAt? c = some node) (hoff : node.enabled = false)
    (hQ : ∀ m', m'.solver.Sound cells → m.solver.Entered m'.solver c node →
      m'.solver.passes = m.solver.passes → m'.solver.changes = m.solver.changes + 1 →
      m'.solver.metrics.faults = m.solver.metrics.faults → m.NoDeed m' →
      Ensures (settle fuel c) m' Q) :
    Ensures (enable fuel c) m Q := by
  rw [enable_eq, ensures_bind, ensures_getConstraint, Solver.lookupConstraint_eq_ok hnode]
  simp only [hoff, Bool.false_eq_true, if_false]
  rw [ensures_bind]
  refine ((ensures_enter h hnode hoff).and (enter_abstains c m)).mono ?_
  rintro _ m' ⟨⟨rfl, h', he, hp, hc, hf⟩, hdeeds⟩
  exact hQ m' h' he hp hc hf hdeeds

/-- Enabling a constraint does nothing if it does not exist or is part of the graph. -/
theorem ensures_enable_cases {m : Machine W T} {fuel : Nat} {c : ConstraintId}
    {Q : Except SolveError Unit → Machine W T → Prop} (h : m.solver.Sound cells)
    (hsame : ∀ r, r = .ok () ∨ m.solver.constraintAt? c = none → Q r m)
    (hQ : ∀ node m', m'.solver.Sound cells → m.solver.Entered m'.solver c node →
      m'.solver.passes = m.solver.passes → m'.solver.changes = m.solver.changes + 1 →
      m'.solver.metrics.faults = m.solver.metrics.faults → m.NoDeed m' →
      Ensures (settle fuel c) m' Q) :
    Ensures (enable fuel c) m Q := by
  cases hnode : m.solver.constraintAt? c with
  | none =>
    unfold enable
    rw [ensures_bind, ensures_getConstraint, Solver.lookupConstraint, hnode]
    exact hsame _ (.inr hnode)
  | some node =>
    cases hen : node.enabled with
    | true =>
      unfold enable
      rw [ensures_bind, ensures_getConstraint, Solver.lookupConstraint_eq_ok hnode]
      simp only [hen, if_true]
      exact (ensures_pure _).2 (hsame _ (.inl rfl))
    | false => exact ensures_enable h hnode hen (hQ node)

/-- Disabling a constraint does nothing if it does not exist or is not part of the graph. Otherwise it
is switched off, the change is counted, and the constraint leaves the graph. -/
theorem ensures_disable_cases {m : Machine W T} {fuel : Nat} {c : ConstraintId}
    {Q : Except SolveError Unit → Machine W T → Prop}
    (hsame : ∀ r, r = .ok () ∨ m.solver.constraintAt? c = none → ¬ m.solver.Enabled c → Q r m)
    (hQ : ∀ node m', SwitchedOff m.solver m'.solver c node →
      m'.solver.passes = m.solver.passes → m'.solver.changes = m.solver.changes + 1 →
      m'.solver.metrics.faults = m.solver.metrics.faults → m.NoDeed m' →
      Ensures (if node.isEnforcing then remove fuel c else deregister c) m' Q) :
    Ensures (disable fuel c) m Q := by
  unfold disable
  rw [ensures_bind, ensures_getConstraint]
  unfold Solver.lookupConstraint
  cases hnode : m.solver.constraintAt? c with
  | none =>
    -- a constraint that does not exist is not enabled
    refine hsame _ (.inr hnode) ?_
    rintro ⟨n, hn, _⟩
    rw [hnode] at hn
    cases hn
  | some node =>
    simp only
    cases hen : node.enabled with
    | false =>
      refine (ensures_pure _).2 (hsame _ (.inl rfl) ?_)
      rintro ⟨n, hn, hen'⟩
      obtain rfl := Option.some.inj (hnode.symm.trans hn)
      rw [hen] at hen'
      cases hen'
    | true =>
      simp only [Bool.not_true, Bool.false_eq_true, if_false, ensures_bind]
      refine .changeConstraint hnode ?_
      simp only [ensures_update, ensures_count, ensures_note]
      have hnote : m.NoDeed { m with journal := .disabling c :: m.journal } := .note rfl
      exact hQ node _ ⟨hnode, (switchedOff_modifyConstraint hnode).constraintAt, fun _ => rfl⟩ rfl rfl
        rfl ⟨rfl, hnote.deeds⟩

/-- Enabling keeps the graph. -/
theorem enable_keeps (fuel : Nat) (c : ConstraintId) :
    Keeps (W := W) (T := T) cells (enable fuel c) := by
  intro m h
  refine ensures_enable_cases h (fun _ _ => ⟨h, Quiet.transitive.refl _⟩) fun _ m₁ h₁ he hp hc _ _ => ?_
  refine ((settle_obeys propagates_frame fuel (Solver.propagates_switchOff c) m₁).and
    (ensures_settle h₁ he.idle)).mono ?_
  rintro r m' ⟨hprop, h'⟩
  -- a change was counted, so nothing is owed to the plans that were built before
  refine ⟨h', Solver.quiet_of_changes_lt ?_ (hp ▸ hprop.passes)⟩
  rw [hprop.changes, hc]
  exact Nat.lt_succ_self _

/-- Disabling keeps the graph. -/
theorem disable_keeps (fuel : Nat) (c : ConstraintId) :
    Keeps (W := W) (T := T) cells (disable fuel c) := by
  intro m h
  refine ensures_disable_cases (fun _ _ _ => ⟨h, Quiet.transitive.refl _⟩)
    fun node m₁ hoff hp hc _ _ => ?_
  refine ((leave_obeys propagates_frame fuel c node m₁).and (ensures_leave h hoff hp)).mono ?_
  rintro r m' ⟨hprop, h'⟩
  refine ⟨h', Solver.quiet_of_changes_lt ?_ (hp ▸ hprop.passes)⟩
  rw [hprop.changes, hc]
  exact Nat.lt_succ_self _

/-- Enabling obeys every relation of its frame. -/
theorem enable_obeys {ρ : Solver W T → Solver W T → Prop} {c : ConstraintId}
    (hρ : EnterFrame c ρ) (fuel : Nat) : Obeys ρ (enable fuel c) := by
  have hT := hρ.toTransitive
  rw [enable_eq]
  refine .bind hT (.getConstraint hT c) fun node => ?_
  split
  · exact .pure hT _
  · refine .bind hT (.bind hT (.changeConstraint hT hρ.onEnter) fun _ => ?_) fun _ =>
      settle_obeys hρ.toPassFrame fuel hρ.onLeave
    -- the constraint is switched on above; what remains of entering comes first, and then it is
    -- settled
    refine .bind hT (register_obeys hρ.toForceFrame c) fun _ => .bind hT (.update hρ.onChange) fun _ => ?_
    exact .bind hT (hρ.count (by intro; rfl)) fun _ => .note hT _

/-- Disabling obeys every relation of its frame. -/
theorem disable_obeys {ρ : Solver W T → Solver W T → Prop} {c : ConstraintId}
    (hρ : LeaveFrame c ρ) (fuel : Nat) : Obeys ρ (disable fuel c) := by
  have hT := hρ.toTransitive
  unfold disable
  refine .bind hT (.getConstraint hT c) fun node => ?_
  split
  · exact .pure hT _
  · refine .bind hT (.changeConstraint hT hρ.onLeave) fun _ => .bind hT (.update hρ.onChange) fun _ => ?_
    refine .bind hT (hρ.count (by intro; rfl)) fun _ => .bind hT (.note hT _) fun _ => ?_
    exact leave_obeys hρ.toPassFrame fuel c node

/-- Taking back the enabling of members disables each of them, and goes on where this fails. -/
theorem undoMembers_obeys {ρ : Solver W T → Solver W T → Prop} (hρ : ∀ c, LeaveFrame c ρ) (fuel : Nat)
    (cs : List ConstraintId) (hT : Transitive ρ) : Obeys ρ (undoMembers fuel cs) := by
  induction cs with
  | nil => exact .pure hT _
  | cons c cs ih =>
    refine .bind hT (.attempt (disable_obeys (hρ c) fuel)) fun r => ?_
    cases r with
    | ok _ => exact ih
    | error e => exact .bind hT (.note hT _) fun _ => ih

/-- Enabling members one after the other obeys what enabling one obeys. -/
theorem enableMembers_obeys {ρ : Solver W T → Solver W T → Prop} (hρ : ∀ c, EnterFrame c ρ)
    (fuel : Nat) (cs done : List ConstraintId) (hT : Transitive ρ) :
    Obeys ρ (enableMembers fuel cs done) := by
  induction cs generalizing done with
  | nil => exact .pure hT _
  | cons c cs ih =>
    unfold enableMembers
    refine .bind hT (.getConstraint hT c) fun node => ?_
    split
    · exact ih done
    · refine .bind hT (.attempt (enable_obeys (hρ c) fuel)) fun r => ?_
      cases r with
      | ok _ => exact ih _
      | error e =>
        refine .bind hT (.ask hT _) fun stays => .bind hT (.note hT _) fun _ => ?_
        exact .bind hT (undoMembers_obeys (fun c => (hρ c).toLeaveFrame) fuel _ hT) fun _ =>
          .throw hT _

/-- A change of a constraint that leaves what it declares. -/
theorem redeclares_modifyConstraint {f : Constraint W T → Constraint W T}
    (hf : ∀ x, (f x).declared = x.declared) (c : ConstraintId) (s : Solver W T) :
    s.Redeclares (s.modifyConstraint c f) := by
  intro k
  rw [Solver.constraintAt?_modifyConstraint]
  by_cases hk : k = c
  · rw [if_pos hk, hk, Option.map_map]
    exact congrArg (Option.map · _) (funext hf)
  · rw [if_neg hk]

/-- No step of enabling and disabling declares anything anew. -/
theorem redeclares_frame (c : ConstraintId) : EnterFrame (W := W) (T := T) c Redeclares where
  toPassFrame := propagates_frame.mono Redeclares.transitive fun h => h.declared
  onLeave s := (Solver.propagates_switchOff c s).declared
  onChange _ _ := rfl
  onEnter := redeclares_modifyConstraint (by intro; rfl) c

/-- No step of enabling and disabling makes or forgets anything. -/
theorem stands_frame (c : ConstraintId) : EnterFrame (W := W) (T := T) c Stands where
  toPassFrame := propagates_frame.mono Stands.transitive Propagates.stands
  onLeave s := ⟨(redeclares_frame c).onLeave s, fun _ => rfl⟩
  onChange s := ⟨(redeclares_frame c).onChange s, fun _ => rfl⟩
  onEnter s := ⟨(redeclares_frame c).onEnter s, fun _ => rfl⟩

/-- Enabling changes no definition. -/
theorem enable_redeclares (fuel : Nat) (c : ConstraintId) :
    Obeys (W := W) (T := T) Redeclares (enable fuel c) :=
  enable_obeys (redeclares_frame c) fuel

/-- A constraint that was disabled is not part of the graph, even if disabling failed, and no
definition has changed. -/
theorem ensures_disable {m : Machine W T} (fuel : Nat) (c : ConstraintId) :
    Ensures (disable fuel c) m fun _ m' =>
      m.solver.Redeclares m'.solver ∧ ¬ m'.solver.Enabled c := by
  refine ensures_disable_cases (fun _ _ hnot => ⟨Redeclares.transitive.refl _, hnot⟩)
    fun node m₁ hoff _ _ _ _ => ?_
  refine (leave_obeys propagates_frame fuel c node m₁).mono fun r m' hprop =>
    ⟨fun k => (hprop.declared k).trans ?_, hoff.not_enabled hprop⟩
  rw [hoff.constraintAt]
  by_cases hk : k = c
  · rw [if_pos hk, hk, hoff.before]
    rfl
  · rw [if_neg hk]

/-- Removing a constraint: it is disabled and discarded. -/
theorem removeConstraint_obeys {ρ : Solver W T → Solver W T → Prop} {c : ConstraintId}
    (hρ : LeaveFrame c ρ) (hdiscard : Obeys ρ (discard c)) (fuel : Nat) :
    Obeys ρ (removeConstraint fuel c) := by
  have hT := hρ.toTransitive
  refine .bind hT (.getConstraint hT c) fun _ => .bind hT (.attempt (disable_obeys hρ fuel)) fun _ => ?_
  exact .bind hT hdiscard fun _ => .bind hT (.note hT _) fun _ => .query hT _

/-- Enable the constraint that a value is written through, disable it and forget it. -/
def pulse (fuel : Nat) (v : VarId) (c : ConstraintId) : SolveM W T Unit := do
  count fun x => { x with edits := x.edits + 1 }
  note (.writesThrough v c)
  let result ← attempt (enable fuel c)
  let cleanup ← attempt (disable fuel c)
  update fun s => { s with constraints := s.constraints.erase c }
  query fun _ => result
  query fun _ => cleanup

/-- To write a value through a constraint, it is stored and pulsed. -/
theorem writeThrough_eq (fuel : Nat) (v : VarId) (value : T) :
    (writeThrough fuel v value : SolveM W T Unit) =
      ask (·.config.writeStrength) >>= fun strength =>
        storeConstraint { definition := .edit strength (some "write") v value } >>= pulse fuel v :=
  rfl

/-- Writing through a constraint enables it, disables it and forgets it. -/
theorem pulse_obeys {ρ : Solver W T → Solver W T → Prop} {c : ConstraintId} (hρ : EnterFrame c ρ)
    (hforget : ∀ s : Solver W T, ρ s { s with constraints := s.constraints.erase c }) (fuel : Nat)
    (v : VarId) : Obeys ρ (pulse fuel v c) := by
  have hT := hρ.toTransitive
  refine .bind hT (hρ.count (by intro; rfl)) fun _ => .bind hT (.note hT _) fun _ => ?_
  refine .bind hT (.attempt (enable_obeys hρ fuel)) fun result => ?_
  refine .bind hT (.attempt (disable_obeys hρ.toLeaveFrame fuel)) fun cleanup => ?_
  exact .bind hT (.update hforget) fun _ => .bind hT (.query hT _) fun _ => .query hT _

/-- The constraint does not exist in the end. -/
theorem ensures_pulse_gone {m : Machine W T} (fuel : Nat) (v : VarId) (c : ConstraintId) :
    Ensures (pulse fuel v c) m fun _ m' => m'.solver.constraintAt? c = none := by
  unfold pulse
  simp only [ensures_bind, ensures_count, ensures_note, ensures_attempt, ensures_update,
    ensures_query]
  intro result m₁ _ cleanup m₂ _
  have hgone : (m₂.solver.constraints.erase c).get? c = none := by
    rw [Arena.get?_erase, if_pos rfl]
  cases result <;> exact hgone

/-- A constraint that is discarded is forgotten together with its sink. -/
theorem ensures_discard_forgets {m : Machine W T} (c : ConstraintId) :
    Ensures (discard c) m fun _ m' => m.solver.Forgets m'.solver c := by
  unfold discard
  rw [ensures_update]
  cases hsink : (m.solver.constraintAt? c).bind Constraint.sink with
  | none => exact Solver.forgets_eraseConstraint hsink
  | some sink =>
    refine ⟨fun k => Solver.declared_eraseConstraint c k m.solver, fun v => ?_⟩
    change ((m.solver.vars.erase sink).get? v).isSome = true ↔ _
    rw [Arena.get?_erase, hsink]
    -- the sink is the one variable that goes
    by_cases hv : v = sink
    · simp [hv]
    · rw [if_neg hv]
      exact ⟨fun h => ⟨h, fun he => hv (Option.some.inj he).symm⟩, fun h => h.1⟩

/-- A constraint that is removed is forgotten, even if disabling it fails. -/
theorem ensures_removeConstraint_forgets {m : Machine W T} (fuel : Nat) (c : ConstraintId) :
    Ensures (removeConstraint fuel c) m fun _ m' => m.solver.Forgets m'.solver c := by
  unfold removeConstraint
  rw [ensures_bind, ensures_getConstraint, Solver.lookupConstraint]
  cases hnode : m.solver.constraintAt? c with
  | none =>
    -- nothing has happened
    refine ⟨fun k => ?_, fun v => by simp [hnode]⟩
    by_cases hk : k = c
    · rw [if_pos hk, hk, hnode]
      rfl
    · rw [if_neg hk]
  | some node =>
    simp only [ensures_bind, ensures_attempt]
    refine (disable_obeys (stands_frame c).toLeaveFrame fuel m).mono fun result m₁ hs => ?_
    refine (ensures_discard_forgets c).mono fun r m₂ hf => ?_
    cases r with
    | ok _ =>
      simp only [ensures_note, ensures_query]
      exact hs.forgets hf
    | error e => exact hs.forgets hf

/-! ## Making and forgetting -/

/-- A variable that is made is found under a new key, and all else is the same. -/
theorem ensures_storeVariable_made {m : Machine W T} (x : Variable T) :
    Ensures (storeVariable x) m fun r m' => m.solver.Made m'.solver x r ∧
      ∀ k, m'.solver.constraintAt? k = m.solver.constraintAt? k := by
  unfold storeVariable
  rw [ensures_bind, ensures_query]
  cases hins : m.solver.vars.insert x with
  | error e => exact ⟨fun _ => rfl, fun _ => rfl⟩
  | ok p =>
    simp only [Except.mapError, ensures_bind, ensures_update, ensures_pure]
    exact ⟨Arena.get?_of_insert hins, fun _ => rfl⟩

/-- A constraint that is stored is found under a new key, and all else is the same. -/
theorem ensures_storeConstraint_stored {m : Machine W T} (node : Constraint W T) :
    Ensures (storeConstraint node) m fun r m' => m.solver.Stored m'.solver node r ∧
      ∀ v, m'.solver.variableAt? v = m.solver.variableAt? v := by
  unfold storeConstraint
  rw [ensures_bind, ensures_query]
  cases hins : m.solver.constraints.insert node with
  | error e => exact ⟨fun _ => rfl, fun _ => rfl⟩
  | ok p =>
    simp only [Except.mapError, ensures_bind, ensures_update, ensures_pure]
    exact ⟨Arena.get?_of_insert hins, fun _ => rfl⟩

/-- A constraint that is made is stored as declared, or nothing has changed. -/
theorem ensures_insert_stored {m : Machine W T} (d : Definition W T) :
    Ensures (insert d) m fun r m' => m.solver.Stored m'.solver { definition := d } r ∧
      ∀ v, m'.solver.variableAt? v = m.solver.variableAt? v := by
  -- the look-ups change nothing
  have hT : Transitive (· = · : Solver W T → Solver W T → Prop) := ⟨fun _ => rfl, Eq.trans⟩
  have hlookups : Obeys (· = ·) (d.vars.forM fun v => do let _ ← getVariable v : SolveM W T PUnit) :=
    .forM hT fun v => .bind hT (.getVariable hT v) fun _ => .pure hT _
  unfold insert
  rw [ensures_bind]
  refine (hlookups m).mono fun r m₁ he => ?_
  rw [he]
  cases r with
  | ok _ => exact ensures_storeConstraint_stored _
  | error e => exact ⟨fun _ => rfl, fun _ => rfl⟩

/-- An observer that is made is stored with its sink, as it was declared, or nothing has changed. -/
theorem ensures_insertObserver_stored {m : Machine W T} (sink : VarId) (inputs : List VarId)
    (f : Observe W T) :
    Ensures (insertObserver sink inputs f) m fun r m' =>
      (∀ v, m'.solver.variableAt? v = m.solver.variableAt? v) ∧
      match r with
      | .ok c => ∃ d, Draft.define m.solver.config.observerStrength
          [.label "observer", .observer sink inputs f] = .ok d ∧
        m.solver.Stored m'.solver { definition := d, sink := some sink } (.ok c)
      | .error _ => ∀ k, m'.solver.constraintAt? k = m.solver.constraintAt? k := by
  unfold insertObserver declare ofBuild
  simp only [ensures_bind, ensures_ask, ensures_query]
  cases hdefine : Draft.define m.solver.config.observerStrength
      [.label "observer", .observer sink inputs f] with
  | error e => exact ⟨fun _ => trivial, fun _ => trivial⟩
  | ok d =>
    refine (ensures_insert_stored d).mono ?_
    rintro r m₁ ⟨hstored, hvars⟩
    cases r with
    | error e => exact ⟨hvars, hstored⟩
    | ok c =>
      obtain ⟨hfree, hstored⟩ := hstored
      have hnode := hstored c
      rw [if_pos rfl] at hnode
      refine .changeConstraint hnode ?_
      rw [ensures_pure]
      refine ⟨hvars, d, rfl, hfree, fun k => ?_⟩
      rw [Solver.constraintAt?_modifyConstraint, hnode]
      by_cases hk : k = c
      · rw [if_pos hk, if_pos hk]
        rfl
      · rw [if_neg hk, if_neg hk, hstored, if_neg hk]

/-- A variable that is made is one that did not exist. -/
theorem ensures_storeVariable {m : Machine W T} {x : Variable T} (hx : Solver.Untouched x)
    (h : m.solver.Sound cells) :
    Ensures (storeVariable x) m fun r m' =>
      (m'.solver.Sound cells ∧ m.solver.Beside m'.solver) ∧
      (∀ k, m'.solver.constraintAt? k = m.solver.constraintAt? k) ∧
      ∀ v, r = .ok v → m.solver.variableAt? v = none := by
  unfold storeVariable
  rw [ensures_bind, ensures_query]
  cases hins : m.solver.vars.insert x with
  | error e => exact ⟨⟨h, Beside.transitive.refl _⟩, fun _ => rfl, nofun⟩
  | ok p =>
    obtain ⟨v, vars⟩ := p
    obtain ⟨hfree, hvars⟩ := Arena.get?_of_insert hins
    simp only [Except.mapError, ensures_bind, ensures_update, ensures_pure]
    -- the new variable is one that no constraint can mention, since mentioned variables exist
    have hv : ∀ u, ({ m.solver with vars := vars } : Solver W T).variableAt? u =
        m.solver.variableAt? u ∨ m.solver.Unmentioned u ∧
        ∀ y, ({ m.solver with vars := vars } : Solver W T).variableAt? u = some y →
          Solver.Untouched y := by
      intro u
      by_cases hu : u = v
      · refine .inr ⟨fun hn hmem => ?_, fun y hy => ?_⟩
        · have hlive := h.mentioned hn u hmem
          rw [hu, Solver.variableAt?, hfree] at hlive
          cases hlive
        · rw [Solver.variableAt?, hvars, if_pos hu] at hy
          obtain rfl := Option.some.inj hy
          exact hx
      · refine .inl ?_
        rw [Solver.variableAt?, hvars, if_neg hu]
        rfl
    refine ⟨⟨h.of_unmentioned (s := m.solver) (fun _ => rfl) hv rfl,
      Solver.beside_of_unmentioned (s := m.solver) (fun _ => rfl) hv rfl rfl rfl⟩, fun _ => rfl,
      fun u hu => ?_⟩
    -- the key that the new variable got found nothing before
    obtain rfl := Except.ok.inj hu
    exact hfree

/-- Forgetting a variable that no constraint mentions is done aside. -/
theorem ensures_eraseVariable {m : Machine W T} {v : VarId} (h : m.solver.Sound cells)
    (hv : m.solver.Unmentioned v) :
    Ensures (update fun s => { s with vars := s.vars.erase v }) m fun _ m' =>
      m'.solver.Sound cells ∧ m.solver.Beside m'.solver := by
  rw [ensures_update]
  have hvars : ∀ u, ({ m.solver with vars := m.solver.vars.erase v } : Solver W T).variableAt? u =
      m.solver.variableAt? u ∨ m.solver.Unmentioned u ∧
      ∀ y, ({ m.solver with vars := m.solver.vars.erase v } : Solver W T).variableAt? u = some y →
        Solver.Untouched y := by
    intro u
    by_cases hu : u = v
    · refine .inr ⟨hu ▸ hv, fun y hy => ?_⟩
      rw [Solver.variableAt?, Arena.get?_erase, if_pos hu] at hy
      cases hy
    · refine .inl ?_
      rw [Solver.variableAt?, Arena.get?_erase, if_neg hu]
      rfl
  exact ⟨h.of_unmentioned (s := m.solver) (fun _ => rfl) hvars rfl,
    Solver.beside_of_unmentioned (s := m.solver) (fun _ => rfl) hvars rfl rfl rfl⟩

/-- A constraint that is stored is one that did not exist; it is not part of the graph. -/
theorem ensures_storeConstraint {m : Machine W T} {node : Constraint W T}
    (hoff : node.enabled = false) (hidle : node.enforcing = none)
    (hlive : ∀ v ∈ node.definition.vars, (m.solver.variableAt? v).isSome)
    (h : m.solver.Sound cells) :
    Ensures (storeConstraint node) m fun r m' =>
      (m'.solver.Sound cells ∧ m.solver.Beside m'.solver) ∧ m.solver.Stored m'.solver node r := by
  unfold storeConstraint
  rw [ensures_bind, ensures_query]
  cases hins : m.solver.constraints.insert node with
  | error e => exact ⟨⟨h, Beside.transitive.refl _⟩, fun _ => rfl⟩
  | ok p =>
    obtain ⟨c, constraints⟩ := p
    obtain ⟨hfree, hconstraints⟩ := Arena.get?_of_insert hins
    simp only [Except.mapError, ensures_bind, ensures_update, ensures_pure]
    have hc : ∀ k, k ≠ c → ({ m.solver with constraints := constraints } :
        Solver W T).constraintAt? k = m.solver.constraintAt? k := by
      intro k hk
      rw [Solver.constraintAt?, hconstraints, if_neg hk]
      rfl
    have hbefore : ∀ {n}, m.solver.constraintAt? c = some n → n.enabled = false := by
      intro n hn
      rw [Solver.constraintAt?, hfree] at hn
      cases hn
    have hafter : ∀ {n}, ({ m.solver with constraints := constraints } :
        Solver W T).constraintAt? c = some n → n.enabled = false ∧ n.enforcing = none ∧
          ∀ v ∈ n.definition.vars, (m.solver.variableAt? v).isSome := by
      intro n hn
      rw [Solver.constraintAt?, hconstraints, if_pos rfl] at hn
      obtain rfl := Option.some.inj hn
      exact ⟨hoff, hidle, hlive⟩
    exact ⟨⟨h.of_outside (s := m.solver) (fun _ => rfl) hc hbefore hafter rfl,
      Solver.beside_of_outside (s := m.solver) (fun _ => rfl) hc hbefore hafter rfl rfl rfl⟩,
      hfree, hconstraints⟩

/-- Forgetting a constraint that is not part of the graph is done aside. -/
theorem ensures_eraseConstraint {m : Machine W T} {c : ConstraintId} (h : m.solver.Sound cells)
    (hoff : ¬ m.solver.Enabled c) :
    Ensures (update fun s => { s with constraints := s.constraints.erase c }) m fun _ m' =>
      m'.solver.Sound cells ∧ m.solver.Beside m'.solver := by
  have he := Solver.erased_eraseConstraint c m.solver
  exact (ensures_update _).2 ⟨h.erased he hoff, he.beside hoff⟩

/-- Discarding a constraint that is not part of the graph and whose sink it alone mentions is done
aside. -/
theorem ensures_discard {m : Machine W T} {c : ConstraintId} (h : m.solver.Sound cells)
    (hoff : ¬ m.solver.Enabled c) (hsink : m.solver.OwnsSink c) :
    Ensures (discard c) m fun _ m' => m'.solver.Sound cells ∧ m.solver.Beside m'.solver := by
  have herase := (ensures_update _).1 (ensures_eraseConstraint h hoff)
  unfold discard
  rw [ensures_update]
  cases hs : (m.solver.constraintAt? c).bind Constraint.sink with
  | none => exact herase
  | some sink =>
    simp only
    obtain ⟨node, hnode, hnsink⟩ := Option.bind_eq_some_iff.1 hs
    -- the constraint goes first, and then its sink, which nothing mentions any longer
    have hun : ({ m.solver with constraints := m.solver.constraints.erase c } :
        Solver W T).Unmentioned sink := by
      intro k n hn
      rw [Solver.constraintAt?, Arena.get?_erase] at hn
      by_cases hk : k = c
      · rw [if_pos hk] at hn
        cases hn
      · rw [if_neg hk] at hn
        exact hsink hnode hnsink hk hn
    have hvar := (ensures_update _).1
      (ensures_eraseVariable (m := ⟨_, m.world, m.journal⟩) herase.1 hun)
    exact ⟨hvar.1, Beside.transitive.trans herase.2 hvar.2⟩

end SolveM

end DeltaBlue
