import DeltaBlue.Proofs.Apart
import DeltaBlue.Proofs.Candor

/-!
# Whether a constraint is left idle without need

Where outputs are apart, whatever is done without counting a cycle or an unsatisfiable constraint
leaves every idle constraint blocked (`Solver.Still`): a pass leaves its last constraint blocked or
gives it a method, and a removal adds the constraints again that it may have unblocked. Since every
call that succeeds has counted nothing of the kind, no constraint is left idle that could be enforced
in a run of successful calls on such graphs (`RunWith.idle_blocked`).

Where outputs are not apart a constraint may be left idle without need. A relation between two
variables can be displaced from one of them by a weaker constraint that computes it from the other.
Both variables are claimed in the pass then, so the relation finds no method, although it insists more
strongly than the constraint that has displaced it and may take the variable back without closing a
cycle (`RunWith.idle_without_need`).
-/

namespace DeltaBlue

open SolveM (Ensures)

namespace Solver

variable {W T : Type}

/-- The marks have not started again, and nothing that went wrong was counted. -/
def Calm (s s' : Solver W T) : Prop :=
  s'.passes < 2 ^ 64 ∧ s'.metrics.faults = s.metrics.faults

/-- The graph loses enabled constraints at most, and what is counted is counted up. -/
structure Onward (s s' : Solver W T) : Prop extends Propagates s s', FaultsLe s s'

/-- What enforcing a constraint in a pass comes to where outputs are apart: it fails and counts a
fault, or it counts none, and the graph is still or a displaced constraint awaits its turn. -/
def Handed (cells : Prop) (s s' : Solver W T) (mark : Mark) (todo : List ConstraintId) :
    Except SolveError (Option ConstraintId) → Prop
  | .error _ => s'.metrics.faults ≠ s.metrics.faults
  | .ok none => s'.metrics.faults = s.metrics.faults ∧ s'.Still todo
  | .ok (some k) => s'.metrics.faults = s.metrics.faults ∧ s'.WellFormed ∧ s'.Idle k ∧
    s'.Awaiting cells mark k todo

variable {s s₁ s₂ s' : Solver W T} {cells : Prop} {c : ConstraintId} {node : Constraint W T}
  {todo : List ConstraintId}

/-- If all is calm in the end, it was so in between. -/
theorem Calm.between (h : s.Calm s') (hle : s.FaultsLe s₁) (hle' : s₁.FaultsLe s')
    (hp : s₁.passes ≤ s'.passes) : s.Calm s₁ ∧ s₁.Calm s' := by
  obtain ⟨hf₁, hf₂⟩ := hle.eq_of_eq hle' h.2
  exact ⟨⟨Nat.lt_of_le_of_lt hp h.1, hf₁⟩, h.1, hf₂⟩

/-- If all is calm over two changes that go onward, it is so over each of them. -/
theorem Calm.split (h : s.Calm s') (ho : s.Onward s₁) (ho' : s₁.Onward s') :
    s.Calm s₁ ∧ s₁.Calm s' :=
  h.between ho.toFaultsLe ho'.toFaultsLe ho'.passes

/-- Whether a graph is still is a matter of its constraints and of the walk strengths. -/
theorem Still.congr (h : s.Still todo) (hc : ∀ k, s'.constraintAt? k = s.constraintAt? k)
    (hv : ∀ v, s'.walkAt v = s.walkAt v) : s'.Still todo where
  apart := h.apart.within (within_of_constraintAt hc)
  blocked := h.blocked.congr hc hv

/-- A constraint that is not idle need not stand on the list. -/
theorem Still.drop (h : s.Still (c :: todo)) (hidle : ¬ s.Idle c) : s.Still todo where
  apart := h.apart
  blocked := h.blocked.drop hidle

/-- The removal of a constraint leaves the graph still but for the orphans that it hands over. -/
theorem Still.vacated (ht : s.Still [c]) (h : s.Sound cells)
    (hv : Vacated cells s s₁ s₂ c node todo) (hlt : s₂.passes < 2 ^ 64) : s₂.Still todo where
  apart := (ht.apart.within hv.detached.within).within (within_of_constraintAt hv.repaints.constraintAt)
  blocked := ht.blocked.vacated h hv hlt

/-- A constraint that enters a still graph is the only one that may be idle without being
blocked. -/
theorem Still.entered (ht : s.Still []) (he : Entered s s' c node) (hapart : s.ApartWith c) :
    s'.Still [c] where
  apart := hapart.entered he
  blocked := ht.blocked.entered he

/-- What is done aside leaves a still graph still. -/
theorem Still.aside (ht : s.Still todo) (ha : s.Aside s') : s'.Still todo where
  apart := ht.apart.within ha.within
  blocked := ht.blocked.aside ha

/-- The empty graph is still. -/
theorem still_empty (config : Config) : (empty config : Solver W T).Still [] where
  apart := (forest_empty config).apart
  blocked := idleBlocked_empty config

/-! ## Edges of the graph with another method in force -/

/-- The edges of the dependency graph if the idle constraint `c` were to determine `o`, in place of
what determines it now. -/
def FeedsWith (s : Solver W T) (c : ConstraintId) (o v w : VarId) : Prop :=
  w ≠ o ∧ s.Feeds v w ∨ w = o ∧ s.Mentions c v ∧ v ≠ o

/-- If the idle constraint `c` were to determine `o`, some variable would be computed from itself. -/
def ClosesCycle (s : Solver W T) (c : ConstraintId) (o : VarId) : Prop :=
  ∃ v, Relation.TransGen (s.FeedsWith c o) v v

/-- These are the edges once a method with this output is installed. -/
theorem Installed.feeds_iff {mark : Mark} {i : Nat} {m : Method W T} {x : Variable T}
    (hi : Installed s s' mark c node i m x) (h : s.WellFormed) {v w : VarId} :
    s'.Feeds v w ↔ s.FeedsWith c m.output v w := by
  -- only the edges into the output change, and those come from the variables of the new constraint
  by_cases hw : w = m.output
  · subst hw
    constructor
    · rintro ⟨k, hk⟩
      rw [hi.reads_iff h, if_pos rfl] at hk
      obtain ⟨rfl, hv, hne⟩ := hk
      exact .inr ⟨rfl, ⟨node, hi.before.1, hv⟩, hne⟩
    · rintro (⟨hne, _⟩ | ⟨_, ⟨n, hn, hv⟩, hne⟩)
      · exact absurd rfl hne
      · obtain rfl := Option.some.inj (hi.before.1.symm.trans hn)
        exact hi.feeds_output h hv hne
  · rw [hi.feeds_of_ne h hw]
    exact ⟨fun hf => .inl ⟨hw, hf⟩, fun hf => hf.elim And.right fun hr => absurd hr.1 hw⟩

/-- Whether every edge would lead to a variable in a later slot, if `c` were to determine `o`. -/
def ascendsWith (s : Solver W T) (c : ConstraintId) (o : VarId) : Bool :=
  s.constraints.toList.all fun p =>
    (p.2.output?.all fun w => w = o ||
      p.2.definition.vars.all fun v => v = w || v.index < w.index) &&
    (!(p.1 = c) || p.2.definition.vars.all fun v => v = o || v.index < o.index)

/-- If the test succeeds, no cycle is closed. -/
theorem not_closesCycle_of_ascendsWith {o : VarId} (h : s.ascendsWith c o = true) :
    ¬ s.ClosesCycle c o := by
  simp only [ascendsWith, List.all_eq_true, Bool.and_eq_true, Option.all_eq_true, Bool.or_eq_true,
    decide_eq_true_eq] at h
  rintro ⟨v, hcycle⟩
  refine not_transGen_of_index_lt ?_ v hcycle
  -- an edge into another variable is one that was there before; an edge into `o` starts at a
  -- variable of `c`
  rintro v w (⟨hw, k, n, hn, hout, hv, hne⟩ | ⟨rfl, ⟨n, hn, hv⟩, hne⟩)
  · exact (((h (k, n) (Arena.mem_toList.2 hn)).1 w hout).resolve_left hw v hv).resolve_left hne
  · have hc := (h (c, n) (Arena.mem_toList.2 hn)).2
    simp only [decide_true, Bool.not_true, Bool.false_eq_true, false_or] at hc
    exact (hc v hv).resolve_left hne

end Solver

namespace SolveM

open Solver (Sound Still Awaiting Calm Onward FaultsLe)

variable {W T : Type} {m m' : Machine W T} {cells : Prop} {c : ConstraintId} {fuel : Nat}
  {todo : List ConstraintId}

/-- Every step of a pass goes onward. -/
theorem onward_frame : PassFrame (W := W) (T := T) Onward where
  refl s := ⟨propagates_frame.refl s, faultsLe_frame.refl s⟩
  trans h h' := ⟨propagates_frame.trans h.toPropagates h'.toPropagates,
    faultsLe_frame.trans h.toFaultsLe h'.toFaultsLe⟩
  onPaint hf v s := ⟨propagates_frame.onPaint hf v s, faultsLe_frame.onPaint hf v s⟩
  onWork hf s := ⟨propagates_frame.onWork hf s, faultsLe_frame.onWork hf s⟩
  onVariable f v s := ⟨propagates_frame.onVariable f v s, faultsLe_frame.onVariable f v s⟩
  onForce i c s hi := ⟨propagates_frame.onForce i c s hi, faultsLe_frame.onForce i c s hi⟩
  onUnsatisfied s := ⟨propagates_frame.onUnsatisfied s, faultsLe_frame.onUnsatisfied s⟩
  onBreak c s := ⟨propagates_frame.onBreak c s, faultsLe_frame.onBreak c s⟩
  onPass s := ⟨propagates_frame.onPass s, faultsLe_frame.onPass s⟩

/-! ## Adding -/

/-- Enforcing a constraint that awaits its turn comes to one of the cases of `Solver.Handed`. -/
theorem ensures_enforce_handed {remove : ConstraintId → SolveM W T Unit} {mark : Mark}
    (hremove : ∀ c, Obeys FaultsLe (remove c)) (h : m.solver.WellFormed)
    (hidle : m.solver.Idle c) (ha : m.solver.Awaiting cells mark c todo) :
    Ensures (enforce remove fuel mark c) m fun r m' =>
      Solver.Handed cells m.solver m'.solver mark todo r := by
  obtain ⟨node, hnode, hen, hnone⟩ := hidle
  refine (ensures_enforcement remove fuel mark h hnode hen hnone).mono fun r m' hcase => ?_
  cases hcase with
  -- a required constraint without a method is counted as unsatisfiable, which is a fault
  | refused _ _ _ hfaults =>
    intro he
    have hunsat := (Prod.mk.inj (hfaults.symm.trans he)).2
    omega
  | left _ halike hheld hfaults => exact ⟨hfaults, ha.left h hnode hheld halike⟩
  | @enforced m₁ m₂ i method x hi hpasses hf₁ hsweep =>
    have hr := sweep_repaints mark fuel _ m₁ _ m₂ hsweep
    have h₂ := (h.installed hi).repaints hr
    have hfaults := (sweep_obeys sameFaults_frame mark fuel _ m₁ _ m₂ hsweep).trans hf₁
    obtain ⟨hw, hswept⟩ := ensures_sweep_installed h hi ha.settled _ m₂ hsweep
    have hrest₂ := ha.toInPass.swept hi h hpasses hw hswept
    -- whether something was displaced decides between a still graph and another turn
    cases hdis : x.determinedBy with
    | none =>
      refine ⟨hfaults, Still.congr (s := m₂.solver) ⟨?_, ?_⟩ (fun _ => rfl)
        fun u => Solver.walkAt_marked u method.output⟩
      · exact (ha.apart.within hi.within).within (Solver.within_of_constraintAt hr.constraintAt)
      · refine ha.idleBlocked h hi hr hrest₂ fun j hj => hj.resolve_left fun he => ?_
        rw [hdis] at he
        cases he
    | some k =>
      obtain ⟨n, hn, hidle⟩ := hi.displaced_idle h hdis
      exact ⟨hfaults, h₂.marked method.output mark, ⟨n, (hr.constraintAt k).trans hn, hidle⟩,
        ha.displaced h hi hr hrest₂ hpasses hdis⟩
  | @cycle m₁ m₂ _ i method x closing a _ hi _ hf₁ hsweep hbreak =>
    have hf₂ := (sweep_obeys sameFaults_frame mark fuel _ m₁ _ m₂ hsweep).trans hf₁
    obtain ⟨⟨e, rfl⟩, hlt⟩ := ensures_breakCycle_counts hremove closing a r m' hbreak
    -- the cycle that is broken is counted, and nothing is counted down
    rw [(Prod.mk.inj hf₂).1] at hlt
    exact fun he => absurd (Prod.mk.inj he).1 (Nat.ne_of_gt hlt)

/-- The chain of displacements that starts with a constraint awaiting its turn, if it counts no
fault, succeeds and leaves the graph still. -/
theorem ensures_displace_still {remove : ConstraintId → SolveM W T Unit} {mark : Mark} {steps : Nat}
    (hremove : ∀ c, Obeys FaultsLe (remove c)) (h : m.solver.WellFormed)
    (hidle : m.solver.Idle c) (ha : m.solver.Awaiting cells mark c todo) :
    Ensures (displace remove fuel mark steps c) m fun r m' =>
      m'.solver.metrics.faults = m.solver.metrics.faults → r = .ok () ∧ m'.solver.Still todo := by
  -- while the chain goes on, nothing was counted
  refine ensures_displace_of_enforce (J := fun k m₁ => m₁.solver.WellFormed ∧ m₁.solver.Idle k ∧
    m₁.solver.Awaiting cells mark k todo ∧
    m₁.solver.metrics.faults = m.solver.metrics.faults) ?_ ⟨h, hidle, ha, rfl⟩
  rintro k m₁ ⟨h₁, hidle₁, ha₁, hf₁⟩
  refine (ensures_enforce_handed hremove h₁ hidle₁ ha₁).mono fun r m₂ hhanded => ?_
  match r, hhanded with
  -- a failure counts a fault, which the whole chain is assumed not to do
  | .error e, hne => exact fun hf => absurd (hf.trans hf₁.symm) hne
  | .ok none, ⟨_, hstill⟩ => exact fun _ => ⟨rfl, hstill⟩
  | .ok (some next), ⟨hf₂, h₂, hidle₂, ha₂⟩ => exact ⟨h₂, hidle₂, ha₂, hf₂.trans hf₁⟩

/-- Adding an idle constraint to a graph that is still but for it, if this counts no fault, succeeds
and leaves the graph still. -/
theorem ensures_add_still (h : m.solver.Sound cells) (ht : m.solver.Still (c :: todo))
    (hidle : m.solver.Idle c) :
    Ensures (add fuel c) m fun r m' =>
      m.solver.Calm m'.solver → r = .ok () ∧ m'.solver.Still todo := by
  refine ensures_add_of_displace fun fuel => ?_
  have hremove : ∀ {ρ : Solver W T → Solver W T → Prop}, PassFrame ρ → ∀ k,
      Obeys ρ (withdraw (add fuel) fuel k) := fun hρ =>
    withdraw_obeys hρ (add_obeys hρ fuel) fuel
  by_cases hlt : m.solver.passes + 1 < 2 ^ 64
  · -- nothing is claimed yet
    have ha : ({ m.solver with passes := m.solver.passes + 1 } : Solver W T).Awaiting cells
        (.ofPass (m.solver.passes + 1)) c todo :=
      { toInPass := h.inPass hlt c
        toStill := ht.congr (fun _ => rfl) fun _ => rfl
        lost := fun _ k _ hclaimed => absurd hclaimed (h.unclaimed hlt k.output) }
    exact (ensures_displace_still (m := ⟨_, m.world, m.journal⟩) (hremove faultsLe_frame)
      h.toWellFormed.nextPass hidle ha).mono fun _ _ hstill hcalm => hstill hcalm.2
  · -- the marks start again
    refine (displace_obeys propagates_frame (hremove propagates_frame) fuel _ fuel c _).mono
      fun r m' hprop hcalm => ?_
    exact absurd (Nat.lt_of_le_of_lt hprop.passes hcalm.1) hlt

/-! ## Removing -/

/-- Adding the constraints of a list that may be idle without being blocked leaves every idle
constraint blocked, if it counts no fault. -/
theorem ensures_readd_still {cs : List ConstraintId} {failure : Option SolveError}
    (h : m.solver.Sound cells) (ht : m.solver.Still cs)
    (hlive : ∀ k ∈ cs, (m.solver.constraintAt? k).isSome) :
    Ensures (readd (add fuel) cs failure) m fun _ m' =>
      m.solver.Calm m'.solver → m'.solver.Still [] := by
  induction cs generalizing m failure with
  | nil => cases failure with
    | none => exact (ensures_pure _).2 fun _ => ht
    | some e => exact (ensures_throw _).2 fun _ => ht
  | cons c cs ih =>
    have hlive' : ∀ k ∈ cs, (m.solver.constraintAt? k).isSome :=
      fun k hk => hlive k (List.mem_cons_of_mem c hk)
    refine .readd_cons (fun hnone => ?_) (fun hidle => ?_) fun hnot => ih h (ht.drop hnot) hlive'
    · have hsome := hlive c List.mem_cons_self
      rw [hnone] at hsome
      cases hsome
    refine ((add_sound cells fuel m c h hidle).and ((add_obeys onward_frame fuel c m).and
      (ensures_add_still h ht hidle))).mono ?_
    rintro _ m₁ ⟨h₁, ho₁, hadded⟩ failure _ _ r m' hrun hcalm
    -- counters only go up, so what is calm over the whole list is calm over its head
    obtain ⟨hcalm₁, hcalm'⟩ := hcalm.split ho₁
      (readd_obeys onward_frame (add_obeys onward_frame fuel) cs failure m₁ _ _ hrun)
    exact ih h₁ (hadded hcalm₁).2 (fun k hk => (ho₁.constraint_live k).trans (hlive' k hk)) r m'
      hrun hcalm'

/-- A constraint that was switched off leaves the graph. If this counts no fault, every idle constraint
is blocked again. -/
theorem ensures_leave_still {s : Solver W T} {node : Constraint W T} (h : s.Sound cells)
    (ht : s.Still [c]) (hoff : SwitchedOff s m.solver c node) (hp : m.solver.passes = s.passes) :
    Ensures (if node.isEnforcing then remove fuel c else deregister c) m fun _ m' =>
      m.solver.Calm m'.solver → m'.solver.Still [] := by
  refine ensures_leave_cases onward_frame.toForceFrame h hoff hp
    (fun _ _ _ _ _ hnot hcalm => absurd hcalm.1 hnot) fun _ m₂ cs hv ho₂ r m' hrun hcalm => ?_
  obtain ⟨hcalm₂, hcalm'⟩ := hcalm.split ho₂
    (readd_obeys onward_frame (add_obeys onward_frame fuel) cs none m₂ _ _ hrun)
  exact ensures_readd_still hv.sound (ht.vacated h hv hcalm₂.1) hv.live r m' hrun hcalm'

/-! ## Enabling and disabling -/

/-- Enabling a constraint, if no fault is counted, leaves every idle constraint blocked. -/
theorem ensures_enable_still (h : m.solver.Sound cells) (ht : m.solver.Still [])
    (hapart : m.solver.ApartWith c) :
    Ensures (enable fuel c) m fun _ m' => m.solver.Calm m'.solver → m'.solver.Still [] := by
  refine ensures_enable_cases h (fun _ _ _ => ht) fun _ m₁ h₁ he _ _ hf₁ _ => ?_
  -- a fault that adding counts is counted still in the end
  have hcalm₂ : ∀ {m₂ m' : Machine W T}, m₁.solver.FaultsLe m₂.solver →
      m₂.solver.FaultsLe m'.solver → m₂.solver.passes ≤ m'.solver.passes →
      m.solver.Calm m'.solver → m₁.solver.Calm m₂.solver := fun hle₂ hle hp hcalm =>
    (Calm.between ⟨hcalm.1, hcalm.2.trans hf₁.symm⟩ hle₂ hle hp).1
  refine ensures_settle_cases ((add_obeys faultsLe_frame fuel c m₁).and
    (ensures_add_still h₁ (ht.entered he hapart) he.idle)) ?_ ?_ ?_
  · rintro m₂ ⟨hle₂, hadded⟩ hcalm
    exact (hadded (hcalm₂ hle₂ (faultsLe_frame.refl _) (Nat.le_refl _) hcalm)).2
  · -- after a rollback adding has failed, so it has counted a fault
    rintro failed m₂ ⟨hle₂, hadded⟩
    refine (rollBackEnable_obeys onward_frame fuel (c := c) (fun s =>
      ⟨Solver.propagates_switchOff c s, Solver.faultsLe_of_eq rfl⟩) failed m₂).mono ?_
    intro r m' ho hcalm
    cases (hadded (hcalm₂ hle₂ ho.toFaultsLe ho.passes hcalm)).1
  · rintro e m₂ _ ⟨hle₂, hadded⟩ hcalm
    cases (hadded (hcalm₂ hle₂ (faultsLe_frame.refl _) (Nat.le_refl _) hcalm)).1

/-- Disabling a constraint, if no fault is counted, leaves every idle constraint blocked. -/
theorem ensures_disable_still (h : m.solver.Sound cells) (ht : m.solver.Still []) :
    Ensures (disable fuel c) m fun _ m' => m.solver.Calm m'.solver → m'.solver.Still [] := by
  refine ensures_disable_cases (fun _ _ _ _ => ht) fun node m₁ hoff hp _ hf₁ _ => ?_
  have hstill : m.solver.Still [c] :=
    ⟨ht.apart, fun k hk => .inr ((ht.blocked k hk).resolve_left List.not_mem_nil)⟩
  exact (ensures_leave_still h hstill hoff hp).mono
    fun _ _ hstill hcalm => hstill ⟨hcalm.1, hcalm.2.trans hf₁.symm⟩

/-! ## Moves -/

/-- A move that counts no fault leaves every idle constraint blocked. -/
theorem Move.still (hmove : Move cells Solver.ApartWith fuel m m') (h : m.solver.Sound cells)
    (ht : m.solver.Still []) (hcalm : m.solver.Calm m'.solver) : m'.solver.Still [] := by
  cases hmove with
  | enable c hP hrun => exact ensures_enable_still h ht hP _ m' hrun hcalm
  | disable c hrun => exact ensures_disable_still h ht _ m' hrun hcalm
  | aside haside _ _ => exact ht.aside haside

/-- Moves that count no fault between them leave every idle constraint blocked. -/
theorem Moves.still (hmoves : Moves cells Solver.ApartWith fuel m m') (h : m.solver.Sound cells)
    (ht : m.solver.Still []) (hcalm : m.solver.Calm m'.solver) : m'.solver.Still [] := by
  induction hmoves with
  | refl => exact ht
  | tail hmoves hmove ih =>
    have h₁ := (Moves.keeps hmoves h).1
    -- calm is a matter of the whole way, so it is divided before the induction hypothesis is used
    obtain ⟨hcalm₁, hcalm₂⟩ := hcalm.between (Moves.faultsLe hmoves) hmove.faultsLe
      (hmove.keeps h₁).2.passes
    exact hmove.still h₁ (ih hcalm₁) hcalm₂

end SolveM

namespace Call

open SolveM (Moves)

variable {W T : Type} {m m' : Machine W T} {cells : Prop} {fuel : Nat}
  {r : Except SolveError (Answer W T)}

/-- The call succeeds or counts no fault, and whenever a constraint is enabled in the course of it,
the outputs of the enabled constraints and of that one are apart. -/
def Flawless (fuel : Nat) (call : Call W T) (m : Machine W T)
    (r : Except SolveError (Answer W T)) (m' : Machine W T) : Prop :=
  ((∃ a, r = .ok a) ∨ m'.solver.metrics.faults = m.solver.metrics.faults) ∧
    call.EnablesWhere Solver.ApartWith fuel m

/-- Whether a call is seen to be flawless: it counts no fault, and enables nothing, or only where every
constraint has one method or the graph is a forest by the order of the slots. -/
def isFlawless (call : Call W T) (m m' : Machine W T) : Bool :=
  m'.solver.metrics.faults = m.solver.metrics.faults &&
    match call with
    | newVariables _ | insert _ | disable _ => true
    | enable c => m.solver.isOneWayWith c || m.solver.isForestWith c
    | _ => false

/-- If the test succeeds, the call is flawless. -/
theorem flawless_of_isFlawless {call : Call W T} (h : call.isFlawless m m' = true) :
    call.Flawless fuel m r m' := by
  unfold isFlawless at h
  rw [Bool.and_eq_true, decide_eq_true_eq] at h
  refine ⟨.inr h.1, ?_⟩
  cases call with
  | newVariables _ | insert _ | disable _ => trivial
  | enable c =>
    rcases (Bool.or_eq_true _ _).mp h.2 with hone | hforest
    · exact Solver.apartWith_of_isOneWayWith hone
    · exact (Solver.forestWith_of_isForestWith hforest).apartWith
  | _ => cases h.2

/-- A flawless call leaves every idle constraint blocked. -/
theorem Flawless.still {call : Call W T} (hok : call.Flawless fuel m r m')
    (h : m.solver.Sound cells) (hcareful : call.Careful cells m.solver)
    (hrun : (call.run fuel).exec m = some (r, m')) (ht : m.solver.Still [])
    (hlt : m'.solver.passes < 2 ^ 64) : m'.solver.Still [] := by
  -- resetting the counters is the one call that counts faults down
  by_cases hreset : call = resetMetrics
  · subst hreset
    have hstill : Ensures (resetMetrics.run fuel) m fun _ m' => m'.solver.Still [] := by
      unfold run SolveM.resetMetrics
      rw [SolveM.ensures_bind, SolveM.ensures_count]
      exact (SolveM.ensures_pure _).2 (ht.congr (fun _ => rfl) fun _ => rfl)
    exact hstill r m' hrun
  · have hmoves : Moves cells Solver.ApartWith fuel m m' :=
      ensures_moves h hcareful hreset (fun _ hP => hP) hok.2 r m' hrun
    refine hmoves.still h ht ⟨hlt, ?_⟩
    rcases hok.1 with ⟨a, rfl⟩ | hfaults
    · exact run_candid fuel hreset m _ m' hrun a rfl
    · exact hfaults

end Call

namespace RunWith

variable {W T : Type} {own : Prop} {config : Config} {plans : List (Plan × Nat)} {m : Machine W T}

/-- In a run of successful calls, in which the outputs of the enabled constraints are apart whenever a
constraint is enabled, no constraint is left idle that could be enforced: all outputs of an idle
constraint are held at least as strongly as it insists. -/
theorem idle_blocked (h : RunWith Call.Flawless own config plans m)
    (hlt : m.solver.passes < 2 ^ 64) {c : ConstraintId} {node : Constraint W T}
    (hnode : m.solver.constraintAt? c = some node) (hen : node.enabled = true)
    (hidle : node.enforcing = none) :
    ∀ method ∈ node.definition.methods, ∃ x, m.solver.variableAt? method.output = some x ∧
      node.definition.strength ≤ x.walkStrength := by
  have hstill : m.solver.Still [] := by
    clear hnode hen hidle
    induction h with
    | start w => exact Solver.still_empty config
    | outside w _ ih => exact ih hlt
    | @call plans m m' r fuel call h hcall hrun hok ih =>
      obtain ⟨hsound, htracked⟩ := h.run.sound
      have hcareful := Run.careful htracked hcall
      obtain ⟨_, hquiet⟩ := Call.ensures_run hsound hcareful r m' hrun
      exact hok.still hsound hcareful hrun (ih (Nat.lt_of_le_of_lt hquiet.passes hlt)) hlt
  obtain ⟨n, hn, hheld⟩ :=
    (hstill.blocked c ⟨node, hnode, hen, hidle⟩).resolve_left List.not_mem_nil
  obtain rfl := Option.some.inj (hnode.symm.trans hn)
  intro method hmethod
  obtain ⟨x, hx⟩ := Option.isSome_iff_exists.1 (h.run.sound.1.toWellFormed.mentioned hnode _
    (Definition.output_mem_vars hmethod))
  exact ⟨x, hx, Solver.walkAt_eq hx ▸ hheld method hmethod⟩

/-- Three constraints that compute one variable from another; the strongest is disabled in the end. -/
def copiedThrice : List (Call Unit Nat) :=
  [.newVariables [0, 0],
    .insert (.ofMethod .weak none (.compute ⟨1, 0⟩ [⟨0, 0⟩] .first) ⟨by decide, by decide⟩),
    .enable ⟨0, 0⟩,
    .insert (.ofMethod .strong none (.compute ⟨1, 0⟩ [⟨0, 0⟩] .first) ⟨by decide, by decide⟩),
    .enable ⟨1, 0⟩,
    .insert (.ofMethod .medium none (.compute ⟨1, 0⟩ [⟨0, 0⟩] .first) ⟨by decide, by decide⟩),
    .enable ⟨2, 0⟩, .disable ⟨1, 0⟩]

/-- The weakest constraint, displaced by the strongest, stays idle when this one is disabled, since the
output is then held by the third. -/
theorem idle_blocked_copiedThrice : ∃ (m : Machine Unit Nat) (node : Constraint Unit Nat),
    Call.runWhile Call.isFlawless 9 copiedThrice ⟨.empty {}, (), []⟩ = some m ∧
    m.solver.passes < 2 ^ 64 ∧ m.solver.constraintAt? ⟨0, 0⟩ = some node ∧
    node.enabled = true ∧ node.enforcing = none ∧
    ∀ method ∈ node.definition.methods, ∃ x, m.solver.variableAt? method.output = some x ∧
      node.definition.strength ≤ x.walkStrength := by
  have hany : (Call.runWhile Call.isFlawless 9 copiedThrice ⟨.empty {}, (), []⟩).any (fun m =>
      m.solver.passes < 2 ^ 64 ∧ (m.solver.constraintAt? ⟨0, 0⟩).any fun node =>
        node.enabled = true ∧ node.enforcing = none) = true := by
    decide +kernel
  simp only [Option.any_eq_true, decide_eq_true_eq] at hany
  obtain ⟨m, hm, hlt, node, hnode, hen, hidle⟩ := hany
  have hstart : RunWith Call.Flawless False {} [] (⟨.empty {}, (), []⟩ : Machine Unit Nat) :=
    .start ()
  obtain ⟨plans, h⟩ := hstart.runWhile Call.flawless_of_isFlawless (by decide) hm
  exact ⟨m, node, hm, hlt, hnode, hen, hidle, idle_blocked h hlt hnode hen hidle⟩

/-- Two variables that a strong relation holds equal, one of which a weak constraint then computes from
the other. -/
def relatedAndCopied : List (Call Unit Nat) :=
  [.newVariables [0, 0],
    .constrain (.relation .strong ⟨1, 0⟩ [⟨0, 0⟩] [] .first),
    .constrain (.ofMethod .weak none (.compute ⟨1, 0⟩ [⟨0, 0⟩] .first) ⟨by decide, by decide⟩)]

/-- Every call succeeds, and the strong relation is left idle, although its first output is held at the
strength of the weak constraint that has displaced it, and taking the output back would close no
cycle. -/
theorem idle_without_need : ∃ (m : Machine Unit Nat) (plans : List (Plan × Nat))
    (node : Constraint Unit Nat) (method : Method Unit Nat) (x : Variable Nat),
    Call.runOk 9 relatedAndCopied ⟨.empty {}, (), []⟩ = some m ∧
    RunWith (fun _ _ _ r _ => ∃ a, r = .ok a) True {} plans m ∧ m.solver.passes < 2 ^ 64 ∧
    m.solver.constraintAt? ⟨0, 0⟩ = some node ∧ node.enabled = true ∧ node.enforcing = none ∧
    method ∈ node.definition.methods ∧ m.solver.variableAt? method.output = some x ∧
    x.walkStrength < node.definition.strength ∧ ¬ m.solver.ClosesCycle ⟨0, 0⟩ method.output := by
  have hany : (Call.runOk 9 relatedAndCopied ⟨.empty {}, (), []⟩).any (fun m =>
      m.solver.passes < 2 ^ 64 ∧ (m.solver.constraintAt? ⟨0, 0⟩).any fun node =>
        node.enabled = true ∧ node.enforcing = none ∧ node.definition.methods.any fun method =>
          m.solver.ascendsWith ⟨0, 0⟩ method.output = true ∧
          (m.solver.variableAt? method.output).any fun x =>
            x.walkStrength < node.definition.strength) = true := by
    decide +kernel
  simp only [Option.any_eq_true, List.any_eq_true, decide_eq_true_eq] at hany
  obtain ⟨m, hm, hlt, node, hnode, hen, hidle, method, hmem, hascends, x, hx, hwalk⟩ := hany
  have hstart : RunWith (fun _ _ _ r _ => ∃ a, r = .ok a) True {} []
      (⟨.empty {}, (), []⟩ : Machine Unit Nat) := .start ()
  obtain ⟨plans, h⟩ := hstart.runOk (by decide) hm
  exact ⟨m, plans, node, method, x, hm, h, hlt, hnode, hen, hidle, hmem, hx, hwalk,
    Solver.not_closesCycle_of_ascendsWith hascends⟩

end RunWith

end DeltaBlue
