import DeltaBlue.Proofs.Forest
import DeltaBlue.Proofs.Termination

/-!
# Operations on forests return

An operation that does not return is stopped in a graph whose methods in force form a cycle, however
much fuel it has. In a forest they form none. So an operation returns if the enabled constraints form
a forest wherever it is stopped for want of fuel (`StopsOnForest`), and this is so for enabling and
disabling: their walks keep the constraints as they are, and every other part of them that may be
stopped is one of the two again, on a graph that has lost constraints at most. It does not matter
here whether the marks have started again.
-/

namespace DeltaBlue

namespace Solver

open Relation

variable {W T : Type} {s s' : Solver W T} {v w : VarId}

/-- The methods in force of a forest form no cycle. -/
theorem Forest.not_cyclic (hforest : s.Forest) (h : s.WellFormed) : ¬ s.Cyclic := by
  rintro ⟨v, hcycle⟩
  obtain ⟨w, hstep, hback⟩ := TransGen.head'_iff.1 hcycle
  refine hforest.not_reaches_of_feeds h (h.feeds_of_next hstep) ?_
  exact ReflTransGen.mono (fun _ _ => h.feeds_of_next) _ _ hback

/-- Repainting keeps a forest. -/
theorem Forest.repaints (hforest : s.Forest) (hr : s.Repaints s') : s'.Forest :=
  hforest.of_constraintAt hr.constraintAt

end Solver

namespace SolveM

open Solver (Sound Idle InPass Mendable Propagates Forest ForestWith)

variable {W T α β : Type} {m : Machine W T} {cells : Prop} {c : ConstraintId}
  {node : Constraint W T} {fuel : Nat}

/-! ## Where an operation is stopped -/

/-- Wherever the operation is stopped, the records agree and the enabled constraints form a forest. -/
def StopsOnForest (op : SolveM W T α) (m : Machine W T) : Prop :=
  ∀ m', stop? op m = some m' → m'.solver.WellFormed ∧ m'.solver.Forest

/-- An operation that is stopped on forests only does not go round. -/
theorem Resolves.returns {op : Nat → SolveM W T α} {Q : Except SolveError α → Machine W T → Prop}
    (h : Resolves op m Q) (hstops : ∀ fuel, StopsOnForest (op fuel) m) : Returns op m Q := by
  refine h.resolve_right ?_
  rintro ⟨s, hcyclic, bound, hround⟩
  obtain ⟨m', hstop, hr⟩ := hround bound (Nat.le_refl _)
  obtain ⟨h', hforest⟩ := hstops bound m' hstop
  exact (hforest.repaints hr.symm).not_cyclic (h'.repaints hr.symm) hcyclic

namespace StopsOnForest

variable {op : SolveM W T α}

/-- An operation that always returns is not stopped. -/
theorem of_total (h : Total op) : StopsOnForest op m := by
  intro m' hstop
  obtain ⟨r, hr⟩ := h m
  rw [exec_eq_none_of_stop? hstop] at hr
  cases hr

/-- A walk without fuel is stopped where it stands. -/
theorem unfinished (h : m.solver.WellFormed) (hforest : m.solver.Forest) :
    StopsOnForest (unfinished : SolveM W T α) m := by
  intro m' hstop
  obtain rfl := Option.some.inj hstop
  exact ⟨h, hforest⟩

/-- A walk is stopped in the graph in which it began, but for cells, walk strengths and constancies. -/
theorem of_cutShort {more : SolveM W T α} (hcut : CutShort op more) (h : m.solver.WellFormed)
    (hforest : m.solver.Forest) : StopsOnForest op m := by
  intro m' hstop
  rcases hcut m with ⟨r, hr, _⟩ | ⟨m₁, hstop₁, hr⟩
  · rw [exec_eq_none_of_stop? hstop] at hr
    cases hr
  · obtain rfl := Option.some.inj (hstop.symm.trans hstop₁)
    exact ⟨h.repaints hr, hforest.repaints hr⟩

/-- Of two operations in sequence each has to be looked at where it begins. -/
theorem bind {f : α → SolveM W T β} (hop : StopsOnForest op m)
    (hf : Ensures op m fun r m' =>
      match r with
      | .ok a => StopsOnForest (f a) m'
      | .error _ => True) : StopsOnForest (op >>= f) m := by
  intro m' hstop
  rw [stop?_bind] at hstop
  -- either the first operation is stopped, or the second one after it
  cases hexec : exec op m with
  | none =>
    rw [hexec] at hstop
    exact hop m' hstop
  | some p =>
    obtain ⟨r, m₁⟩ := p
    rw [hexec] at hstop
    have hrest := hf r m₁ hexec
    cases r with
    | ok a => exact hrest m' hstop
    | error e => cases hstop

/-- After an operation that always returns only the rest can be stopped. -/
theorem after {f : α → SolveM W T β} (h : Total op)
    (hf : Ensures op m fun r m' =>
      match r with
      | .ok a => StopsOnForest (f a) m'
      | .error _ => True) : StopsOnForest (op >>= f) m :=
  bind (of_total h) hf

/-- An attempt is stopped where the operation is. -/
theorem attempt (hop : StopsOnForest op m) : StopsOnForest (attempt op) m := by
  intro m' hstop
  rw [stop?_attempt] at hstop
  exact hop m' hstop

end StopsOnForest

/-! ## Removing and adding -/

/-- Adding an idle constraint to a sound forest is stopped on forests only. -/
def AddsOnForest (cells : Prop) (add : ConstraintId → SolveM W T Unit) : Prop :=
  ∀ m c, m.solver.Sound cells → m.solver.Forest → m.solver.Idle c → StopsOnForest (add c) m

/-- Removing a constraint that was switched off in a forest is stopped on forests only. -/
def RemovesOnForest (cells : Prop) (remove : ConstraintId → SolveM W T Unit) : Prop :=
  ∀ m s c node, s.WellFormed → SwitchedOff s m.solver c node → m.solver.passes = s.passes →
    (s.passes < 2 ^ 64 → s.Mendable cells node) → s.Forest → StopsOnForest (remove c) m

/-- What a removal does before it repairs the walk strengths always returns. -/
theorem total_detach (c : ConstraintId) : Total (W := W) (T := T) (detach c) := by
  unfold detach
  refine (Total.getConstraint c).bind fun node => (Total.changeConstraint c _).bind fun _ => ?_
  refine (total_deregister c).bind fun _ => ?_
  cases node.output? with
  | none => exact .pure _
  | some o => exact (Total.note _).bind fun _ => (Total.changeVariable o _).bind fun _ => .pure _

section

variable {add : ConstraintId → SolveM W T Unit} (hsound : AddsSoundly cells add)
  (hobeys : ∀ c, Obeys Propagates (add c)) (hadd : AddsOnForest cells add)
include hsound hobeys hadd

/-- Adding idle constraints again is stopped on forests only, one after the other. -/
theorem readd_stopsOnForest {cs : List ConstraintId} {failure : Option SolveError}
    (h : m.solver.Sound cells) (hforest : m.solver.Forest) :
    StopsOnForest (readd add cs failure) m := by
  induction cs generalizing m failure with
  | nil => cases failure with
    | none => exact .of_total (.pure _)
    | some e => exact .of_total (.throw e)
  | cons c cs ih =>
    unfold readd
    refine .after (.getConstraint c) ?_
    rw [ensures_getConstraint, Solver.lookupConstraint]
    cases hnode : m.solver.constraintAt? c with
    | none => trivial
    | some node =>
      simp only
      split
      · next hi =>
        have hidle : m.solver.Idle c := (Solver.idle_iff hnode).2 hi
        refine .bind (.attempt (hadd m c h hforest hidle)) ?_
        rw [ensures_attempt]
        refine ((hsound m c h hidle).and (hobeys c m)).mono ?_
        rintro r m' ⟨h', hprop⟩
        cases r with
        | ok _ => exact ih h' (hforest.propagates hprop)
        | error _ => exact ih h' (hforest.propagates hprop)
      · exact ih h hforest

/-- Withdrawing a constraint is stopped on forests only, if the additions that follow are. -/
theorem withdraw_stopsOnForest (fuel : Nat) : RemovesOnForest cells (withdraw add fuel) := by
  intro m s c node h hoff hpasses hmend hforest
  rw [withdraw_eq]
  refine .after (total_detach c) ((ensures_detach h.toGrounded hoff).mono ?_)
  rintro _ m₁ ⟨rfl, hd, hp₁⟩
  simp only
  unfold mend
  cases hout : node.output? with
  | none => exact .of_total (.pure _)
  | some a =>
    -- with one constraint fewer the graph is still a forest
    have hforest₁ := hforest.detached hd
    refine .bind (.of_cutShort (strandedFrom_cutShort fuel _ _) (h.detached hd) hforest₁) ?_
    refine (ensures_strandedFrom_sound h hd (hp₁.trans hpasses) hmend hout).mono ?_
    rintro r m₂ ⟨h₂, hr, _⟩
    cases r with
    | ok found =>
      refine .after (.ask _) ((ensures_ask _).2 ?_)
      exact readd_stopsOnForest hsound hobeys hadd h₂ (hforest₁.repaints hr)
    | error e => trivial

end

section

variable {remove : ConstraintId → SolveM W T Unit} (hsound : RemovesSoundly cells remove)
  (hobeys : ∀ c, Obeys Propagates (remove c)) (hremove : RemovesOnForest cells remove)
include hremove

omit hremove in
/-- What is done to the constraint that closes a cycle always returns. -/
theorem total_expel (closing : ConstraintId) (claimed : VarId) :
    Total (W := W) (T := T) (expel closing claimed) :=
  (Total.note _).bind fun _ => (Total.count _).bind fun _ => .changeConstraint _ _

/-- Breaking a cycle is stopped on forests only, if removing is. -/
theorem breakCycle_stopsOnForest {closing : ConstraintId} {claimed : VarId}
    (h : m.solver.WellFormed) (hforest : m.solver.Forest)
    (hmend : m.solver.passes < 2 ^ 64 → ∀ n, m.solver.constraintAt? closing = some n →
      m.solver.Mendable cells n) : StopsOnForest (breakCycle remove closing claimed) m := by
  rw [breakCycle_eq]
  refine .after (total_expel closing claimed) ((ensures_expel closing claimed).mono ?_)
  rintro _ m₁ (⟨_, ⟨e, rfl⟩, _⟩ | ⟨n, hn, rfl, hoff, hp⟩)
  · trivial
  · refine .bind (hremove m₁ m.solver closing n h hoff hp (fun hlt => hmend hlt n hn) hforest) ?_
    intro r m' _
    cases r with
    | ok _ => exact .of_total (.throw _)
    | error _ => trivial

/-- Enforcing an idle constraint is stopped on forests only. -/
theorem enforce_stopsOnForest {mark : Mark} (h : m.solver.WellFormed) (hforest : m.solver.Forest)
    (hidle : m.solver.Idle c) (hpass : m.solver.passes < 2 ^ 64 → m.solver.InPass cells mark c) :
    StopsOnForest (enforce remove fuel mark c) m := by
  obtain ⟨node, hnode, hen, hnone⟩ := hidle
  unfold enforce
  refine .after (total_install mark c) ((ensures_install h hnode hen hnone).mono ?_)
  rintro r m₁ (⟨_, hrefused, _⟩ | ⟨i, x, method, hi, rfl, hp₁, _, _⟩)
  · unfold Refused at hrefused
    split at hrefused
    · obtain ⟨rfl, _⟩ := hrefused
      trivial
    · obtain ⟨rfl, _⟩ := hrefused
      exact .of_total (.pure _)
  -- installing a method does not change which constraints are enabled
  have h₁ := h.installed hi
  have hforest₁ := hforest.installed hi
  refine .bind (.of_cutShort (sweep_cutShort mark fuel _) h₁ hforest₁) ?_
  intro r m₂ hsweep
  have hr := sweep_repaints mark fuel _ m₁ _ m₂ hsweep
  have hp₂ : m₂.solver.passes = m.solver.passes := hr.passes.trans hp₁
  cases r with
  | error e => trivial
  | ok closed =>
    cases closed with
    | none => exact .of_total ((Total.changeVariable _ _).bind fun _ => .pure _)
    | some p =>
      obtain ⟨closing, a⟩ := p
      refine breakCycle_stopsOnForest hremove (h₁.repaints hr) (hforest₁.repaints hr)
        fun hlt n hn => ?_
      have hpass := hpass (hp₂ ▸ hlt)
      obtain ⟨hw, hswept⟩ := ensures_sweep_installed h hi hpass.settled _ m₂ hsweep
      exact hpass.mendable hi h hp₁ hw hn hswept

include hsound hobeys

/-- The cascade is stopped on forests only. -/
theorem displace_stopsOnForest {mark : Mark} {steps : Nat} (h : m.solver.Sound cells)
    (hforest : m.solver.Forest) (hidle : m.solver.Idle c)
    (hpass : m.solver.passes < 2 ^ 64 → m.solver.InPass cells mark c) :
    StopsOnForest (displace remove fuel mark steps c) m := by
  -- by induction on the steps; a displaced constraint is idle, and the pass goes on with it
  induction steps generalizing m c with
  | zero => exact .unfinished h.toWellFormed hforest
  | succ steps ih =>
    unfold displace
    refine .bind (enforce_stopsOnForest hremove h.toWellFormed hforest hidle hpass) ?_
    refine ((ensures_enforce hsound h.toWellFormed hidle hpass).and
      (enforce_obeys propagates_frame hobeys fuel mark c m)).mono ?_
    rintro r m' ⟨⟨h', hnext⟩, hprop⟩
    cases r with
    | error e => trivial
    | ok displaced =>
      cases displaced with
      | none => exact .of_total (.pure _)
      | some k =>
        obtain ⟨hidle', hpass'⟩ := hnext k rfl
        exact ih h' (hforest.propagates hprop) hidle' hpass'

end

/-- Adding is stopped on forests only, by induction on the fuel. -/
theorem add_stopsOnForest (cells : Prop) (fuel : Nat) :
    AddsOnForest (W := W) (T := T) cells (add fuel) := by
  induction fuel with
  | zero => exact fun m c h hforest _ => .unfinished h.toWellFormed hforest
  | succ fuel ih =>
    intro m c h hforest hidle
    unfold add nextMark
    refine .after ((Total.update _).bind fun _ => .ask _) ?_
    simp only [ensures_bind, ensures_update, ensures_ask]
    refine displace_stopsOnForest (ensures_withdraw_sound (add_sound cells fuel) fuel)
      (fun c => withdraw_obeys propagates_frame (add_obeys propagates_frame fuel) fuel c)
      (withdraw_stopsOnForest (add_sound cells fuel) (add_obeys propagates_frame fuel) ih fuel)
      ?_ ?_ ?_ ?_
    · exact h.nextPass
    · exact hforest
    · exact hidle
    · exact fun hlt => h.inPass hlt c

/-- Removing is stopped on forests only. -/
theorem remove_stopsOnForest (cells : Prop) (fuel : Nat) :
    RemovesOnForest (W := W) (T := T) cells (remove fuel) :=
  withdraw_stopsOnForest (add_sound cells fuel) (add_obeys propagates_frame fuel)
    (add_stopsOnForest cells fuel) fuel

/-! ## Enabling and disabling -/

/-- A constraint that is switched off leaves a forest behind. -/
theorem leave_stopsOnForest {s : Solver W T} (h : s.Sound cells) (hforest : s.Forest)
    (hoff : SwitchedOff s m.solver c node) (hp : m.solver.passes = s.passes) :
    StopsOnForest (if node.isEnforcing then remove fuel c else deregister c) m := by
  split
  · exact remove_stopsOnForest cells fuel m s c node h.toWellFormed hoff hp
      (fun hlt => (h.rest hlt).mendable node) hforest
  · exact .of_total (total_deregister c)

/-- What is added again after a rollback was idle. -/
theorem restore_stopsOnForest {failed : ConstraintId} (h : m.solver.Sound cells)
    (hforest : m.solver.Forest) : StopsOnForest (restore fuel c failed) m := by
  unfold restore
  refine .after (.ask _) ((ensures_ask _).2 ?_)
  simp only
  split
  · next hstranded =>
    have hidle : m.solver.Idle failed := Solver.idle_iff_any.2 hstranded.2
    refine .bind (.attempt (add_stopsOnForest cells fuel m failed h hforest hidle)) ?_
    rw [ensures_attempt]
    intro r m' _
    cases r with
    | ok _ => exact .of_total (.pure _)
    | error e => exact .of_total (.note _)
  · exact .of_total (.pure _)

/-- Taking an enabling back is stopped on forests only. -/
theorem rollBackEnable_stopsOnForest {failed : ConstraintId} (h : m.solver.Sound cells)
    (hforest : m.solver.Forest) : StopsOnForest (rollBackEnable fuel c failed) m := by
  unfold rollBackEnable
  refine .after (.note _) ((ensures_note _).2 ?_)
  refine .after (.ask _) ((ensures_ask _).2 ?_)
  cases hnode : m.solver.constraintAt? c with
  | none => exact .of_total (.pure _)
  | some node =>
    simp only
    have hoff := switchedOff_modifyConstraint hnode
    refine .after (.changeConstraint c _) (.changeConstraint hnode ?_)
    refine .bind (.attempt (leave_stopsOnForest h hforest hoff rfl)) ?_
    rw [ensures_attempt]
    refine ((ensures_leave h ?_ ?_).and (leave_obeys propagates_frame fuel c node _)).mono ?_
    · exact hoff
    · rfl
    rintro undo m₁ ⟨h₁, hprop⟩
    have hforest₁ := (hforest.propagates (Solver.propagates_switchOff c _)).propagates hprop
    cases undo with
    | ok _ => exact restore_stopsOnForest h₁ hforest₁
    | error e =>
      refine .after (.note _) ((ensures_note _).2 ?_)
      exact restore_stopsOnForest h₁ hforest₁

/-- The first enforcement of a constraint is stopped on forests only. -/
theorem settle_stopsOnForest (h : m.solver.Sound cells) (hforest : m.solver.Forest)
    (hidle : m.solver.Idle c) : StopsOnForest (settle fuel c) m := by
  unfold settle
  refine .bind (.attempt (add_stopsOnForest cells fuel m c h hforest hidle)) ?_
  rw [ensures_attempt]
  refine ((add_sound cells fuel m c h hidle).and (add_obeys propagates_frame fuel c m)).mono ?_
  rintro r m₁ ⟨h₁, hprop⟩
  simp only
  split
  · exact .of_total (.pure _)
  · refine .bind (rollBackEnable_stopsOnForest h₁ (hforest.propagates hprop)) fun r m' _ => ?_
    cases r with
    | ok _ => exact .of_total (.throw _)
    | error _ => trivial
  · exact .of_total (.throw _)

/-- Entering the graph always returns. -/
theorem total_enter (c : ConstraintId) : Total (W := W) (T := T) (enter c) := by
  unfold enter
  refine (Total.changeConstraint c _).bind fun _ => (total_register c).bind fun _ => ?_
  exact (Total.update _).bind fun _ => (Total.count _).bind fun _ => .note _

/-- Enabling a constraint is stopped on forests only, if it makes a forest. -/
theorem enable_stopsOnForest (h : m.solver.Sound cells) (hforest : m.solver.ForestWith c) :
    StopsOnForest (enable fuel c) m := by
  rw [enable_eq]
  refine .after (.getConstraint c) ?_
  rw [ensures_getConstraint, Solver.lookupConstraint]
  cases hnode : m.solver.constraintAt? c with
  | none => trivial
  | some node =>
    simp only
    split
    · exact .of_total (.pure _)
    · next hoff =>
      refine .after (total_enter c) ((ensures_enter h hnode (by simpa using hoff)).mono ?_)
      rintro _ m₁ ⟨rfl, h₁, he, _⟩
      exact settle_stopsOnForest h₁ (hforest.entered he) he.idle

/-- Disabling a constraint of a forest is stopped on forests only. -/
theorem disable_stopsOnForest (h : m.solver.Sound cells) (hforest : m.solver.Forest) :
    StopsOnForest (disable fuel c) m := by
  unfold disable
  refine .after (.getConstraint c) ?_
  rw [ensures_getConstraint, Solver.lookupConstraint]
  cases hnode : m.solver.constraintAt? c with
  | none => trivial
  | some node =>
    simp only
    split
    · exact .of_total (.pure _)
    · refine .after (.changeConstraint c _) (.changeConstraint hnode ?_)
      refine .after (.update _) ((ensures_update _).2 ?_)
      refine .after (.count _) ((ensures_count _).2 ?_)
      refine .after (.note _) ((ensures_note _).2 ?_)
      refine leave_stopsOnForest h hforest ?_ ?_
      · exact ⟨hnode, (switchedOff_modifyConstraint hnode).constraintAt, fun _ => rfl⟩
      · rfl

end SolveM

namespace Call

open SolveM (Ensures Returns StopsOnForest)

variable {W T : Type} {m : Machine W T} {Q : Except SolveError (Answer W T) → Machine W T → Prop}

/-- From some amount of fuel on the call returns, and whenever it returns it ends as `Q` says. -/
def EndsIn (call : Call W T) (m : Machine W T)
    (Q : Except SolveError (Answer W T) → Machine W T → Prop) : Prop :=
  Returns (fun fuel => call.run fuel) m Q ∧ ∀ fuel, Ensures (call.run fuel) m Q

/-- A call that returns ends as is ensured. -/
theorem EndsIn.mono {call : Call W T} {P : Except SolveError (Answer W T) → Machine W T → Prop}
    (h : call.EndsIn m P) (hPQ : ∀ r m', P r m' → Q r m') : call.EndsIn m Q :=
  ⟨h.1.mono hPQ, fun fuel => (h.2 fuel).mono hPQ⟩

/-- A call that returns ends as is ensured of every call that does. -/
theorem endsIn_of_returns {call : Call W T}
    (hreturns : Returns (fun fuel => call.run fuel) m fun _ _ => True)
    (hends : ∀ fuel, Ensures (call.run fuel) m Q) : call.EndsIn m Q :=
  ⟨(hreturns.and_ensures hends).mono fun _ _ hQ => hQ.2, hends⟩

/-- A call that is stopped on forests only returns. -/
theorem endsIn_of_stopsOnForest {call : Call W T}
    (hstops : ∀ fuel, StopsOnForest (call.run fuel) m)
    (hends : ∀ fuel, Ensures (call.run fuel) m Q) : call.EndsIn m Q := by
  exact endsIn_of_returns ((run_concludes call m).returns hstops) hends

/-- What an operation without an answer ensures of its result. -/
theorem ensures_done {op : SolveM W T Unit}
    (h : Ensures op m fun r m' => Q (r.map fun _ => .done) m') :
    Ensures (do op; return .done) m Q := ensures_return h

/-- A call whose answer is made of the result of an operation ends as the operation does. -/
theorem endsIn_of_return {α : Type} {call : Call W T} {op : Nat → SolveM W T α} {f : α → Answer W T}
    (hrun : ∀ fuel, call.run fuel = do return f (← op fuel))
    (hstops : ∀ fuel, StopsOnForest (op fuel) m)
    (hends : ∀ fuel, Ensures (op fuel) m fun r m' => Q (r.map f) m') : call.EndsIn m Q := by
  refine endsIn_of_stopsOnForest (fun fuel => ?_) fun fuel => ?_
  · rw [hrun]
    refine .bind (hstops fuel) fun r m' _ => ?_
    cases r with
    | ok _ => exact .of_total (.pure _)
    | error _ => trivial
  · rw [hrun]
    exact ensures_return (hends fuel)

/-- A call that only does something ends as the operation does. -/
theorem endsIn_of_done {call : Call W T} {op : Nat → SolveM W T Unit}
    (hrun : ∀ fuel, call.run fuel = do op fuel; return .done)
    (hstops : ∀ fuel, StopsOnForest (op fuel) m)
    (hends : ∀ fuel, Ensures (op fuel) m fun r m' => Q (r.map fun _ => .done) m') :
    call.EndsIn m Q := endsIn_of_return hrun hstops hends

end Call

end DeltaBlue
