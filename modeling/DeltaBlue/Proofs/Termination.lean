import DeltaBlue.Call
import DeltaBlue.Proofs.Weight

/-!
# Calls return unless they go round

Every loop of propagation but the two walks has a bound. In a pass each displacement claims a
variable that was unclaimed. Adding and removing call each other once for every cycle that is broken,
and the weight of the graph decreases each time. So a call that never returns is in a walk, and the
methods in force form a cycle, on any graph and whatever the methods do.
-/

namespace DeltaBlue

namespace SolveM

variable {W T : Type} {m : Machine W T} {c : ConstraintId} {n : Nat}

open Solver (Seizes Quits SameForce)

/-- In a graph of weight at most `n`, adding a constraint without a method in force resolves, and
the weight stays within the bound. -/
def AddsWithin (n : Nat) (add : Nat → ConstraintId → SolveM W T Unit) : Prop :=
  ∀ m c, (∀ v, ¬ m.solver.Determines c v) → m.solver.weight (some c) ≤ n →
    Resolves (fun fuel => add fuel c) m fun _ m' => m'.solver.weight none ≤ n

/-- In a graph of weight at most `n`, removing a constraint that is not enabled resolves, and the
weight stays within the bound. -/
def RemovesWithin (n : Nat) (remove : Nat → ConstraintId → SolveM W T Unit) : Prop :=
  ∀ m c o, ¬ m.solver.Enabled c → m.solver.Determines c o → m.solver.weight none ≤ n →
    Resolves (fun fuel => remove fuel c) m fun _ m' => m'.solver.weight none ≤ n

/-! ## Removing -/

section

variable {add : Nat → ConstraintId → SolveM W T Unit} (hadd : AddsWithin n add)
include hadd

/-- Adding a list again resolves if each addition does. -/
theorem readd_resolves (cs : List ConstraintId) (failure : Option SolveError)
    (hm : m.solver.weight none ≤ n) :
    Resolves (fun fuel => readd (add fuel) cs failure) m fun _ m' => m'.solver.weight none ≤ n := by
  -- by induction on the list; the bound on the weight holds between two additions
  induction cs generalizing m failure with
  | nil => cases failure with
    | none => exact .pure hm
    | some e => exact .throw hm
  | cons c cs ih =>
    unfold readd
    refine .after (.getConstraint c) ?_
    rw [ensures_getConstraint, Solver.lookupConstraint]
    cases hnode : m.solver.constraintAt? c with
    | none => exact hm
    | some node =>
      simp only
      split
      · next hidle =>
        rw [Constraint.idle_iff] at hidle
        have hweight : m.solver.weight (some c) ≤ n := by
          rw [Solver.weight_enabled ⟨node, hnode, hidle.1⟩]
          exact hm
        refine .bind (.attempt (hadd m c (Solver.not_determines hnode hidle.2) hweight)) ?_ ?_
        · rintro e m' ⟨_, ha, _⟩
          cases ha
        · rintro r m' ⟨_, ha, hm'⟩
          obtain rfl := Except.ok.inj ha
          cases r with
          | ok _ => exact ih _ hm'
          | error _ => exact ih _ hm'
      · exact ih _ hm

/-- Taking a constraint out of the graph resolves, within any bound that holds once its method is
out of force. -/
theorem withdraw_resolves (hm : ∀ s', Quits m.solver s' c → s'.weight none ≤ n) :
    Resolves (fun fuel => withdraw (add fuel) fuel c) m fun _ m' => m'.solver.weight none ≤ n := by
  unfold withdraw
  refine .after (.getConstraint c) ?_
  rw [ensures_getConstraint, Solver.lookupConstraint]
  cases hnode : m.solver.constraintAt? c with
  | none =>
    have hdet : ∀ v, ¬ m.solver.Determines c v := by
      rintro v ⟨node, hn, _⟩
      rw [hnode] at hn
      cases hn
    refine hm _ ⟨fun _ => id, fun k v => ⟨fun hk => ⟨?_, hk⟩, And.right⟩, fun v k hk => ⟨hk, hdet v⟩⟩
    rintro rfl
    exact hdet v hk
  | some node =>
    simp only
    refine .after (.changeConstraint c _) (.changeConstraint hnode ?_)
    refine .after (total_deregister c) ((ensures_deregister_sameForce ?_).mono ?_)
    · simp only [Solver.constraintAt?_modifyConstraint, if_true, hnode]
      rfl
    rintro _ m₁ ⟨rfl, hsame⟩
    cases hout : node.output? with
    | none =>
      refine .pure (hm _ (Solver.quits_of_dead hnode hsame ?_))
      rintro v ⟨node', hnode', hout'⟩
      obtain rfl := Option.some.inj (hnode.symm.trans hnode')
      rw [hout] at hout'
      cases hout'
    | some o =>
      have ho : m.solver.Determines c o := ⟨node, hnode, hout⟩
      simp only [vacate]
      refine .after (.note _) ((ensures_note _).2 ?_)
      refine .bind (P := fun _ m' => m'.solver.weight none ≤ n) ?_ (fun _ _ hm' => hm')
        fun cs m' hm' => readd_resolves hadd cs none hm'
      refine .after (.changeVariable o _) ?_
      rw [ensures_changeVariable]
      cases hx : m₁.solver.variableAt? o with
      | none =>
        refine hm _ (Solver.quits_of_dead hnode hsame fun v hv => ?_)
        rw [hv.unique ho]
        exact hx
      | some x =>
        simp only
        -- the walk that follows repaints, so that the weight is settled here
        have hvacated := hm _ (Solver.quits_release hnode hsame ho)
        refine .bind (strandedFrom_resolves _ _) (fun _ m' hr => ?_) fun _ m' hr => ?_
        · rw [hr.sameForce.weight_eq]
          exact hvacated
        · refine .of_total (.ask _) ((ensures_ask _).2 ?_)
          rw [hr.sameForce.weight_eq]
          exact hvacated

end

/-! ## Adding -/

section

variable {remove : Nat → ConstraintId → SolveM W T Unit} (hremove : RemovesWithin n remove)
include hremove

/-- Enforcing a constraint resolves. A constraint that it displaces can be enforced in its turn, and
a variable was claimed for it. -/
theorem enforce_resolves (mark : Mark) (hidle : ∀ v, ¬ m.solver.Determines c v)
    (hm : m.solver.weight (some c) ≤ n) :
    Resolves (fun fuel => enforce (remove fuel) fuel mark c) m fun r m' =>
      match r with
      | .ok (some k) => m'.solver.weight (some k) ≤ n ∧ (∀ v, ¬ m'.solver.Determines k v) ∧
        m'.solver.unclaimed mark < m.solver.unclaimed mark
      | _ => m'.solver.weight none ≤ n := by
  unfold enforce
  refine .after (total_install mark c) ?_
  refine (((ensures_install_seizes hidle).and (install_claims mark c m)).and
    (ensures_install_unclaimed mark c)).mono ?_
  rintro r m₁ ⟨⟨hseizes, hclaims⟩, hunclaimed⟩
  match r, hseizes, hunclaimed with
  | .error e, hw, _ => exact Nat.le_trans hw hm
  | .ok none, hw, _ => exact .pure (Nat.le_trans hw hm)
  | .ok (some (o, displaced)), hseizes, hunclaimed =>
    -- the sweep repaints, so that the weight and the claims are those of the installation
    obtain ⟨x, hx, hmark⟩ := hunclaimed o displaced rfl
    have hweight : m₁.solver.weight displaced ≤ n := Nat.le_trans hseizes.weight_le hm
    simp only
    refine .bind ((sweep_resolves mark _).and_ensures fun fuel =>
      ensures_sweep_determines mark fuel _) ?_ ?_
    · rintro e m₂ ⟨hr, _⟩
      change m₂.solver.weight none ≤ n
      rw [hr.sameForce.weight_eq]
      exact Nat.le_trans (m₁.solver.weight_none_le displaced) hweight
    rintro closed m₂ ⟨hr, hdetermines⟩
    have hweight₂ : m₂.solver.weight displaced ≤ n := by
      rw [hr.sameForce.weight_eq]
      exact hweight
    have hnone₂ := Nat.le_trans (m₂.solver.weight_none_le displaced) hweight₂
    cases closed with
    | some p =>
      obtain ⟨closing, a⟩ := p
      -- a cycle is closed: the constraint is switched off, and this makes its removal lose weight
      obtain ⟨node, hnode, hout⟩ := hr.determines.2 (hdetermines closing a rfl)
      simp only
      refine .after (.note _) ((ensures_note _).2 ?_)
      refine .after (.count _) ((ensures_count _).2 ?_)
      refine .after (.changeConstraint closing _) (.changeConstraint hnode ?_)
      refine .bind (hremove _ closing a (fun hen => (Solver.enabled_switchOff hen).1 rfl)
        (Solver.determines_switchOff.2 ⟨node, hnode, hout⟩)
        (Nat.le_trans (Solver.weight_switchOff _ closing) hnone₂)) (fun _ _ hm' => hm') ?_
      exact fun _ _ hm' => .throw hm'
    | none =>
      simp only
      refine .after (.changeVariable o _) ?_
      rw [ensures_changeVariable]
      cases hx₂ : m₂.solver.variableAt? o with
      | none => exact hnone₂
      | some x₂ =>
        have hsame : m₂.solver.SameForce
            (m₂.solver.modifyVariable o fun x => { x with mark := mark }) :=
          Solver.sameForce_modifyVariable (by intro; rfl) o m₂.solver
        refine .pure ?_
        cases displaced with
        | none =>
          change Solver.weight _ none ≤ n
          rw [hsame.weight_eq]
          exact hnone₂
        | some k =>
          refine ⟨?_, fun v => ?_, ?_⟩
          · rw [hsame.weight_eq]
            exact hweight₂
          · rw [hsame.determines, hr.determines]
            exact hseizes.displaced_idle rfl v
          · -- the output was unclaimed and is claimed now, and claims are not taken back
            exact ((Solver.Claims.transitive mark).trans hclaims (hr.claims mark)).unclaimed_lt hx hmark

/-- Enforcing a constraint and everything that is displaced in turn resolves: every step claims a
variable. -/
theorem displace_resolves (mark : Mark) {g : Nat → Nat} (hg : ∀ fuel, fuel ≤ g fuel)
    (hidle : ∀ v, ¬ m.solver.Determines c v) (hm : m.solver.weight (some c) ≤ n) :
    Resolves (fun fuel => displace (remove (g fuel)) (g fuel) mark fuel c) m
      fun _ m' => m'.solver.weight none ≤ n := by
  -- by the number of unclaimed variables
  induction hk : m.solver.unclaimed mark using Nat.strong_induction_on generalizing m c g with
  | _ k ih =>
  have hg' : ∀ fuel, fuel ≤ g (fuel + 1) := fun fuel => Nat.le_trans (Nat.le_succ fuel) (hg _)
  refine .succ ?_
  unfold displace
  refine .bind ((enforce_resolves hremove mark hidle hm).comp hg') (fun _ _ hm' => hm') ?_
  intro displaced m' hm'
  cases displaced with
  | none => exact .pure hm'
  | some next =>
    obtain ⟨hweight, hnext, hlt⟩ := hm'
    exact ih _ (hk ▸ hlt) hg' hnext hweight rfl

end

/-- Adding a constraint resolves: every cycle that is broken decreases the weight. -/
theorem add_resolves (n : Nat) : AddsWithin (W := W) (T := T) n add := by
  induction n using Nat.strong_induction_on with
  | _ n ih =>
  intro m c hidle hm
  -- what is removed was switched off, so the constraints are added again in a lighter graph
  have hremove : RemovesWithin (W := W) (T := T) n fun fuel => withdraw (add fuel) fuel := by
    intro m c o hoff hdet hm
    have hpos : 0 < m.solver.weight none := Solver.weight_pos hdet
    refine (withdraw_resolves (ih (n - 1) (by omega)) fun s' hquits => ?_).mono ?_
    · have hlt := hquits.weight_lt hoff hdet
      omega
    · exact fun _ _ hm' => Nat.le_trans hm' (Nat.sub_le n 1)
  refine .succ ?_
  unfold add nextMark
  refine .after ((Total.update _).bind fun _ => .ask _) ?_
  simp only [ensures_bind, ensures_update, ensures_ask]
  exact displace_resolves hremove _ (g := id) (fun _ => Nat.le_refl _) hidle hm

/-! ## Operations -/

section

variable {α β : Type}

/-- On every machine the operation returns or goes round. -/
def Concludes (op : Nat → SolveM W T α) : Prop := ∀ m, Resolves op m fun _ _ => True

namespace Concludes

/-- An operation that always returns does not go round. -/
theorem of_total {op : SolveM W T α} (h : Total op) : Concludes fun _ => op :=
  fun _ => .of_total h fun _ _ _ => trivial

/-- Of two operations in sequence the second begins on whatever machine the first leaves. -/
theorem bind {op : Nat → SolveM W T α} {f : Nat → α → SolveM W T β} (h : Concludes op)
    (hf : ∀ a, Concludes fun fuel => f fuel a) : Concludes fun fuel => op fuel >>= f fuel :=
  fun m => (h m).bind (fun _ _ _ => trivial) fun a m' _ => hf a m'

/-- An attempt goes round only if the operation does. -/
theorem attempt {op : Nat → SolveM W T α} (h : Concludes op) :
    Concludes fun fuel => attempt (op fuel) :=
  fun m => (h m).attempt.mono fun _ _ _ => trivial

end Concludes

end

/-- A removal returns or goes round, within the weight of the graph. -/
theorem remove_concludes (c : ConstraintId) :
    Concludes (W := W) (T := T) fun fuel => remove fuel c :=
  fun m => (withdraw_resolves (add_resolves (m.solver.weight none))
    fun _ hquits => hquits.weight_le).mono fun _ _ _ => trivial

/-- Adding a constraint without a method in force returns or goes round. -/
theorem add_concludes (hidle : ∀ v, ¬ m.solver.Determines c v) :
    Resolves (fun fuel => attempt (add fuel c)) m fun _ _ => True :=
  (add_resolves _ m c hidle (Nat.le_refl _)).attempt.mono fun _ _ _ => trivial

/-- A constraint that is switched off leaves the graph, or the walk of its removal goes round. -/
theorem leave_concludes (node : Constraint W T) (c : ConstraintId) :
    Concludes (W := W) (T := T) fun fuel =>
      if node.isEnforcing then remove fuel c else deregister c := by
  split
  · exact remove_concludes c
  · exact .of_total (total_deregister c)

/-- The constraint that is added again after a rollback is idle, so adding it returns or goes
round. -/
theorem restore_concludes (c failed : ConstraintId) :
    Concludes (W := W) (T := T) fun fuel => restore fuel c failed := by
  intro m
  unfold restore
  refine .after (.ask _) ((ensures_ask _).2 ?_)
  simp only
  split
  · next hstranded =>
    obtain ⟨node, hnode, hidle⟩ := Solver.idle_iff_any.2 hstranded.2
    refine .bind (add_concludes (Solver.not_determines hnode hidle.2)) (fun _ _ _ => trivial) ?_
    intro r m' _
    cases r with
    | ok _ => exact .pure trivial
    | error e => exact Concludes.of_total (.note _) m'
  · exact .pure trivial

/-- Taking an enabling back returns or goes round. -/
theorem rollBackEnable_concludes (c failed : ConstraintId) :
    Concludes (W := W) (T := T) fun fuel => rollBackEnable fuel c failed := by
  unfold rollBackEnable
  refine .bind (.of_total (.note _)) fun _ => .bind (.of_total (.ask _)) fun found => ?_
  cases found with
  | none => exact .of_total (.pure _)
  | some node =>
    refine .bind (.of_total (.changeConstraint _ _)) fun _ => ?_
    refine .bind (leave_concludes node c).attempt fun undo => ?_
    cases undo with
    | ok _ => exact restore_concludes c failed
    | error e => exact .bind (.of_total (.note _)) fun _ => restore_concludes c failed

/-- The first enforcement of a constraint returns or goes round. -/
theorem settle_concludes (hidle : ∀ v, ¬ m.solver.Determines c v) :
    Resolves (fun fuel => settle fuel c) m fun _ _ => True := by
  unfold settle
  refine .bind (add_concludes hidle) (fun _ _ _ => trivial) fun r m' _ => ?_
  split
  · exact .pure trivial
  · exact Concludes.bind (rollBackEnable_concludes c _) (fun _ => .of_total (.throw _)) m'
  · exact .throw trivial

/-- Enabling returns or goes round. -/
theorem enable_concludes (c : ConstraintId) :
    Concludes (W := W) (T := T) fun fuel => enable fuel c := by
  intro m
  unfold enable
  refine .after (.getConstraint c) ?_
  rw [ensures_getConstraint, Solver.lookupConstraint]
  cases hnode : m.solver.constraintAt? c with
  | none => trivial
  | some node =>
    simp only
    split
    · exact .pure trivial
    · refine .after (.changeConstraint c _) (.changeConstraint hnode ?_)
      refine .after (total_register c) ((register_sameForce c _).mono fun r m₁ hsame => ?_)
      cases r with
      | error e => trivial
      | ok _ =>
        -- no method was in force when the constraint was switched on
        have hidle : ∀ v, ¬ m₁.solver.Determines c v := by
          intro v hv
          obtain ⟨node', hnode', hout⟩ := hsame.determines.1 hv
          simp only [Solver.constraintAt?_modifyConstraint, if_true, hnode] at hnode'
          obtain rfl := Option.some.inj hnode'
          cases hout
        refine .after (.update _) ((ensures_update _).2 ?_)
        refine .after (.count _) ((ensures_count _).2 ?_)
        refine .after (.note _) ((ensures_note _).2 ?_)
        exact settle_concludes hidle

/-- Disabling returns or goes round. -/
theorem disable_concludes (c : ConstraintId) :
    Concludes (W := W) (T := T) fun fuel => disable fuel c := by
  unfold disable
  refine .bind (.of_total (.getConstraint c)) fun node => ?_
  cases node.enabled with
  | false => exact .of_total (.pure _)
  | true =>
    refine .bind (.of_total (.changeConstraint _ _)) fun _ => ?_
    refine .bind (.of_total (.update _)) fun _ => .bind (.of_total (.count _)) fun _ => ?_
    exact .bind (.of_total (.note _)) fun _ => leave_concludes node c

/-- Removing a constraint from the solver returns or goes round. -/
theorem removeConstraint_concludes (c : ConstraintId) :
    Concludes (W := W) (T := T) fun fuel => removeConstraint fuel c := by
  unfold removeConstraint
  refine .bind (.of_total (.getConstraint c)) fun _ => ?_
  refine .bind (disable_concludes c).attempt fun _ => .of_total ?_
  exact (Total.update _).bind fun _ => (Total.note _).bind fun _ => .query _

/-- Enabling a constraint, or else removing it, returns or goes round. -/
theorem enableOrRemove_concludes (c : ConstraintId) :
    Concludes (W := W) (T := T) fun fuel => enableOrRemove fuel c := by
  unfold enableOrRemove
  refine .bind (enable_concludes c).attempt fun r => ?_
  cases r with
  | ok _ => exact .of_total (.pure _)
  | error e =>
    refine .bind (removeConstraint_concludes c).attempt fun cleanup => ?_
    cases cleanup with
    | ok _ => exact .of_total (.throw _)
    | error _ => exact .of_total ((Total.note _).bind fun _ => .throw _)

/-- A variable is stored, or the arena is full. -/
theorem total_storeVariable (x : Variable T) : Total (W := W) (storeVariable x) :=
  (Total.query _).bind fun _ => (Total.update _).bind fun _ => .pure _

/-- A constraint is stored, or the arena is full. -/
theorem total_storeConstraint (x : Constraint W T) : Total (storeConstraint x) :=
  (Total.query _).bind fun _ => (Total.update _).bind fun _ => .pure _

/-- A definition is inserted, or is refused. -/
theorem total_insert (d : Definition W T) : Total (insert d) :=
  (Total.forM fun v => (Total.getVariable v).bind fun _ => .pure _).bind fun _ =>
    total_storeConstraint _

/-- Declaring a constraint and enabling it returns or goes round. -/
theorem constrain_concludes (d : Definition W T) : Concludes fun fuel => constrain fuel d :=
  .bind (.of_total (total_insert d)) fun c => enableOrRemove_concludes c

/-- An observer is inserted, or is refused. -/
theorem total_insertObserver (sink : VarId) (inputs : List VarId) (f : Observe W T) :
    Total (insertObserver sink inputs f) := by
  unfold insertObserver declare ofBuild
  refine (Total.ask _).bind fun strength => (Total.query _).bind fun d => ?_
  exact (total_insert d).bind fun c => (Total.changeConstraint c _).bind fun _ => .pure _

/-- Observing returns or goes round. -/
theorem observe_concludes (inputs : List VarId) (f : Observe W T) :
    Concludes fun fuel => observe fuel inputs f := by
  unfold observe
  refine .bind (.of_total (total_storeVariable _)) fun sink => ?_
  refine .bind (.of_total (total_insertObserver sink inputs f).attempt) fun r => ?_
  cases r with
  | ok c => exact enableOrRemove_concludes c
  | error e => exact .bind (.of_total (.update _)) fun _ => .of_total (.throw e)

/-- A write through an edit returns or goes round. -/
theorem writeThrough_concludes (v : VarId) (value : T) :
    Concludes (W := W) fun fuel => writeThrough fuel v value := by
  unfold writeThrough
  refine .bind (.of_total (.ask _)) fun strength => ?_
  refine .bind (.of_total (total_storeConstraint _)) fun c => ?_
  refine .bind (.of_total (.count _)) fun _ => .bind (.of_total (.note _)) fun _ => ?_
  refine .bind (enable_concludes c).attempt fun result => ?_
  refine .bind (disable_concludes c).attempt fun cleanup => .of_total ?_
  exact (Total.update _).bind fun _ => (Total.query _).bind fun _ => .query _

/-- A write returns or goes round. -/
theorem write_concludes (v : VarId) (value : T) :
    Concludes (W := W) fun fuel => write fuel v value := by
  unfold write
  refine .bind (.of_total (.getVariable v)) fun x => .bind (.of_total (.ask _)) fun direct => ?_
  -- a direct write is a single change
  split
  · refine .of_total ((Total.changeVariable v _).bind fun _ => ?_)
    exact (Total.count _).bind fun _ => .note _
  · exact writeThrough_concludes v value

/-! ## Plans and groups -/

/-- A plan can be built on every graph, or is refused. -/
theorem plan_returns {m : Machine W T} (seeds : List Handle) :
    Returns (fun fuel => plan fuel seeds) m fun _ _ => True := by
  have hall : ∀ {α : Type} {op : SolveM W T α} {m : Machine W T},
      Ensures op m fun _ _ => True := fun _ _ _ => trivial
  unfold plan
  refine .bind (.of_total (.query _) hall) (fun _ _ _ => trivial) fun hot _ _ => ?_
  refine .bind (.of_total ((Total.update _).bind fun _ => .ask _) hall) (fun _ _ _ => trivial)
    fun mark _ _ => ?_
  refine .bind (schedule_returns mark hot) (fun _ _ _ => trivial) fun steps _ _ => ?_
  refine .of_total ((Total.count _).bind fun _ => (Total.ask _).bind fun _ => ?_) hall
  exact (Total.note _).bind fun _ => .pure _

/-- Planning never goes round, whatever the graph. -/
theorem plan_concludes (seeds : List Handle) :
    Concludes (W := W) (T := T) fun fuel => plan fuel seeds :=
  fun _ => .inl (plan_returns seeds)

/-- A plan has finitely many steps, and each is one run of a method. -/
theorem total_executePlan (p : Plan) : Total (W := W) (T := T) (executePlan p) := by
  unfold executePlan
  refine (Total.ask _).bind fun current => ?_
  have hrun : Total (W := W) (T := T) (do
      p.steps.forM fun step => execute step.constraint step.method
      count fun x => { x with planStepsExecuted := x.planStepsExecuted + p.steps.length }) :=
    (Total.forM fun step => total_execute _ _).bind fun _ => .count _
  split
  · exact (Total.throw _).bind fun _ => hrun
  · exact hrun

/-- Undoing members returns or goes round. -/
theorem undoMembers_concludes (cs : List ConstraintId) :
    Concludes (W := W) (T := T) fun fuel => undoMembers fuel cs := by
  induction cs with
  | nil => exact .of_total (.pure _)
  | cons c cs ih =>
    unfold undoMembers
    refine .bind (disable_concludes c).attempt fun r => ?_
    cases r with
    | ok _ => exact ih
    | error e => exact .bind (.of_total (.note _)) fun _ => ih

/-- Enabling members returns or goes round. -/
theorem enableMembers_concludes (cs done : List ConstraintId) :
    Concludes (W := W) (T := T) fun fuel => enableMembers fuel cs done := by
  -- by induction on the members that are left, for any members that are enabled already
  induction cs generalizing done with
  | nil => exact .of_total (.pure _)
  | cons c cs ih =>
    unfold enableMembers
    refine .bind (.of_total (.getConstraint c)) fun node => ?_
    split
    · exact ih done
    · refine .bind (enable_concludes c).attempt fun r => ?_
      cases r with
      | ok _ => exact ih _
      | error e =>
        refine .bind (.of_total (.ask _)) fun stays => .bind (.of_total (.note _)) fun _ => ?_
        exact .bind (undoMembers_concludes _) fun _ => .of_total (.throw _)

/-- Disabling members returns or goes round. -/
theorem disableMembers_concludes (cs : List ConstraintId) (failure : Option SolveError) :
    Concludes (W := W) (T := T) fun fuel => disableMembers fuel cs failure := by
  induction cs generalizing failure with
  | nil => cases failure with
    | none => exact .of_total (.pure _)
    | some e => exact .of_total (.throw _)
  | cons c cs ih =>
    unfold disableMembers
    refine .bind (disable_concludes c).attempt fun r => ?_
    cases r with
    | ok _ => exact ih _
    | error e => exact ih _

/-- Variables are made for a list of values, or the arena is full. -/
theorem total_newVariables (values : List T) : Total (W := W) (newVariables values) := by
  induction values with
  | nil => exact .pure _
  | cons value values ih =>
    exact (total_storeVariable _).bind fun v => ih.bind fun _ => .pure _

/-- A group is built, or a part of it is refused. -/
theorem total_buildGroup (script : GroupScript W T) : Total (buildGroup script) := by
  -- by induction on the script; groups may stand in groups
  induction script with
  | done => exact .pure _
  | add c rest ih => exact (Total.getConstraint c).bind fun _ => ih.bind fun _ => .pure _
  | newVariable value rest ih =>
    exact (total_storeVariable _).bind fun _ => ih.bind fun _ => .pure _
  | declare strength parts rest ih =>
    unfold buildGroup declare ofBuild
    refine (Total.query _).bind fun d => (total_insert d).bind fun c => ?_
    exact ih.bind fun _ => .pure _
  | group inner rest ihInner ih => exact ihInner.bind fun _ => ih.bind fun _ => .pure _

/-- A named variable is found, or is made. -/
theorem total_named (name : String) : Total (W := W) (T := T) (named name) := by
  refine (Total.ask _).bind fun found => ?_
  cases found with
  | none => exact total_storeVariable _
  | some p => exact .pure _

/-- A variable is removed, or is refused because constraints mention it. -/
theorem total_removeVariable (v : VarId) : Total (W := W) (T := T) (removeVariable v) := by
  refine (Total.getVariable v).bind fun _ => (Total.ask _).bind fun cs => ?_
  cases cs with
  | nil => exact .update _
  | cons c cs => exact .throw _

/-- A copy of a constraint is inserted, or is refused. -/
theorem total_substitute (c : ConstraintId) (f : VarId → VarId) :
    Total (W := W) (T := T) (substitute c f) :=
  (Total.getConstraint c).bind fun _ => (Total.query _).bind fun d => total_insert d

end SolveM

/-! ## Calls -/

namespace Call

variable {W T : Type}

open SolveM

/-- Every call returns or goes round. -/
theorem run_concludes (call : Call W T) : Concludes fun fuel => call.run fuel := by
  cases call with
  | query q => exact .of_total (.query q.answer)
  | newVariable value => exact .of_total ((total_storeVariable _).bind fun _ => .pure _)
  | newUnassigned => exact .of_total ((total_storeVariable _).bind fun _ => .pure _)
  | newVariables values => exact .of_total ((total_newVariables values).bind fun _ => .pure _)
  | named name => exact .of_total ((total_named name).bind fun _ => .pure _)
  | write v value => exact (write_concludes v value).bind fun _ => .of_total (.pure _)
  | removeVariable v => exact .of_total ((total_removeVariable v).bind fun _ => .pure _)
  | insert d => exact .of_total ((total_insert d).bind fun _ => .pure _)
  | constrain d => exact (constrain_concludes d).bind fun _ => .of_total (.pure _)
  | stay v strength => exact (constrain_concludes _).bind fun _ => .of_total (.pure _)
  | edit v value strength => exact (constrain_concludes _).bind fun _ => .of_total (.pure _)
  | observe inputs f => exact (observe_concludes inputs f).bind fun _ => .of_total (.pure _)
  | substitute c f => exact .of_total ((total_substitute c f).bind fun _ => .pure _)
  | enable c => exact (enable_concludes c).bind fun _ => .of_total (.pure _)
  | disable c => exact (disable_concludes c).bind fun _ => .of_total (.pure _)
  | removeConstraint c => exact (removeConstraint_concludes c).bind fun _ => .of_total (.pure _)
  | plan seeds => exact (plan_concludes seeds).bind fun _ => .of_total (.pure _)
  | executePlan p => exact .of_total ((total_executePlan p).bind fun _ => .pure _)
  -- building the plan may be refused, and the execution is bounded by the plan
  | recompute seed =>
    refine Concludes.bind ?_ fun _ => .of_total (.pure _)
    exact (plan_concludes [seed]).bind fun p => .of_total (total_executePlan p)
  | enableGroup g =>
    refine Concludes.bind ?_ fun _ => .of_total (.pure _)
    exact .bind (.of_total (.note _)) fun _ => enableMembers_concludes _ _
  | disableGroup g =>
    refine Concludes.bind ?_ fun _ => .of_total (.pure _)
    exact .bind (.of_total (.note _)) fun _ => disableMembers_concludes _ _
  | buildGroup script => exact .of_total ((total_buildGroup script).bind fun _ => .pure _)
  | resetMetrics => exact .bind (.of_total (.count _)) fun _ => .of_total (.pure _)

end Call

end DeltaBlue
