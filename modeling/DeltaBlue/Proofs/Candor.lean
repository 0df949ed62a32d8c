import DeltaBlue.Proofs.Required

/-!
# What success says

A failure may be kept for later, merged with another one or only noted, but in the end somebody
fails: whenever a call succeeds, no cycle and no unsatisfiable constraint was counted anywhere in
it (`SolveM.Candid`). The proof follows the text of the operations. Where a fault is counted the
operation goes on to fail (`SolveM.Fails`), and where the result of an attempt is looked at, the
branch for its failure does too.
-/

namespace DeltaBlue

namespace SolveM

variable {W T α β : Type}

/-- The operation does not succeed. -/
def Fails (op : SolveM W T α) : Prop := ∀ m, Ensures op m fun r _ => ∃ e, r = .error e

/-- Whenever the operation succeeds, it has counted no cycle and no unsatisfiable constraint. -/
def Candid (op : SolveM W T α) : Prop :=
  ∀ m, Ensures op m fun r m' => ∀ a, r = .ok a →
    m'.solver.metrics.faults = m.solver.metrics.faults

namespace Fails

/-- Throwing a failure is failing. -/
theorem throw (e : SolveError) : Fails (W := W) (T := T) (throw e : SolveM W T α) :=
  fun _ => (ensures_throw e).2 ⟨e, rfl⟩

/-- A look-up that gives a failure fails. -/
theorem query (e : SolveError) : Fails (W := W) (T := T) (query fun _ => .error e : SolveM W T α) :=
  fun _ => (ensures_query _).2 ⟨e, rfl⟩

/-- If the rest fails whatever it is handed, then so does the whole. -/
theorem bind {op : SolveM W T α} {f : α → SolveM W T β} (hf : ∀ a, Fails (f a)) :
    Fails (op >>= f) := by
  intro m
  rw [ensures_bind]
  intro r m' _
  cases r with
  | ok a => exact hf a m'
  | error e => exact ⟨e, rfl⟩

/-- What follows a failure is not run. -/
theorem bind_left {op : SolveM W T α} {f : α → SolveM W T β} (hop : Fails op) :
    Fails (op >>= f) := by
  intro m
  rw [ensures_bind]
  refine (hop m).mono ?_
  rintro _ m' ⟨e, rfl⟩
  exact ⟨e, rfl⟩

/-- An operation that never succeeds has nothing to be candid about. -/
theorem candid {op : SolveM W T α} (h : Fails op) : Candid op := by
  intro m
  refine (h m).mono ?_
  rintro _ m' ⟨e, rfl⟩
  exact nofun

end Fails

namespace Candid

/-- An operation that counts no fault is candid. -/
theorem of_obeys {op : SolveM W T α}
    (h : Obeys (fun s s' => s'.metrics.faults = s.metrics.faults) op) : Candid op :=
  fun m => (h m).mono fun _ _ hf _ _ => hf

/-- Returning a value counts nothing. -/
theorem pure (a : α) : Candid (pure a : SolveM W T α) :=
  fun _ => (ensures_pure a).2 fun _ _ => rfl

/-- What does not finish does not succeed. -/
theorem unfinished : Candid (unfinished : SolveM W T α) := fun _ => ensures_unfinished

/-- A look-up that may fail counts nothing. -/
theorem query (f : Solver W T → Except SolveError α) : Candid (query f) :=
  fun _ => (ensures_query f).2 fun _ _ => rfl

/-- A look-up counts nothing. -/
theorem ask (f : Solver W T → α) : Candid (ask f) := fun _ => (ensures_ask f).2 fun _ _ => rfl

/-- Writing into the journal counts nothing. -/
theorem note (n : Notice T) : Candid (W := W) (note n) :=
  fun _ => (ensures_note n).2 fun _ _ => rfl

/-- A change of the solver that leaves the faults is candid. -/
theorem update {f : Solver W T → Solver W T} (hf : ∀ s, (f s).metrics.faults = s.metrics.faults) :
    Candid (update f) :=
  fun m => (ensures_update f).2 fun _ _ => hf m.solver

/-- Counting work is candid. -/
theorem count {f : Metrics → Metrics} (hf : ∀ x, (f x).faults = x.faults) :
    Candid (W := W) (T := T) (count f) :=
  .update fun s => hf s.metrics

/-- Looking a variable up counts nothing. -/
theorem getVariable (v : VarId) : Candid (W := W) (T := T) (getVariable v) := .query _

/-- Looking a constraint up counts nothing. -/
theorem getConstraint (c : ConstraintId) : Candid (W := W) (T := T) (getConstraint c) := .query _

/-- Two candid operations, one after the other. If both succeed, neither has counted a fault. -/
theorem bind {op : SolveM W T α} {f : α → SolveM W T β} (hop : Candid op)
    (hf : ∀ a, Candid (f a)) : Candid (op >>= f) := by
  intro m
  rw [ensures_bind]
  refine (hop m).mono fun r m₁ h₁ => ?_
  cases r with
  | ok a => exact (hf a m₁).mono fun r m' h' b hb => (h' b hb).trans (h₁ a rfl)
  | error e => exact nofun

/-- After an attempt that failed the rest must fail. -/
theorem attempt {op : SolveM W T α} {f : Except SolveError α → SolveM W T β}
    (hop : Candid op) (hok : ∀ a, Candid (f (.ok a))) (herror : ∀ e, Fails (f (.error e))) :
    Candid (attempt op >>= f) := by
  intro m
  rw [ensures_bind, ensures_attempt]
  refine (hop m).mono fun r m₁ h₁ => ?_
  cases r with
  | ok a => exact (hok a m₁).mono fun r m' h' b hb => (h' b hb).trans (h₁ a rfl)
  | error e =>
    refine (herror e m₁).mono ?_
    rintro _ m' ⟨e', rfl⟩
    exact nofun

/-- Changing a variable counts nothing. -/
theorem changeVariable (v : VarId) (f : Variable T → Variable T) :
    Candid (W := W) (changeVariable v f) :=
  .bind (.getVariable v) fun _ => .update fun _ => rfl

/-- Changing a constraint counts nothing. -/
theorem changeConstraint (c : ConstraintId) (f : Constraint W T → Constraint W T) :
    Candid (changeConstraint c f) :=
  .bind (.getConstraint c) fun _ => .update fun _ => rfl

/-- A loop is candid if its rounds are. -/
theorem forM {l : List β} {f : β → SolveM W T PUnit} (hf : ∀ b, Candid (f b)) :
    Candid (l.forM f) := by
  induction l with
  | nil => exact .pure _
  | cons b l ih => exact .bind (hf b) fun _ => ih

end Candid

/-! ## Adding and removing -/

/-- Entering a constraint at its variables counts nothing. -/
theorem register_candid (c : ConstraintId) : Candid (W := W) (T := T) (register c) :=
  .bind (.getConstraint c) fun _ => .forM fun v => .changeVariable v _

/-- Taking a constraint off its variables counts nothing. -/
theorem deregister_candid (c : ConstraintId) : Candid (W := W) (T := T) (deregister c) :=
  .bind (.getConstraint c) fun _ => .forM fun _ => .update fun _ => rfl

/-- Seizing an output counts work, and no fault. -/
theorem seize_candid (c : ConstraintId) (output : VarId) :
    Candid (W := W) (T := T) (seize c output) := by
  unfold seize
  refine .bind (.getVariable _) fun x => ?_
  cases x.determinedBy with
  | none =>
    refine .bind (.changeVariable _ _) fun _ => .bind (.count (by intro; rfl)) fun _ => ?_
    exact .bind (.note _) fun _ => .pure _
  | some other =>
    refine .bind (.changeConstraint _ _) fun _ => .bind (.count (by intro; rfl)) fun _ => ?_
    refine .bind (.note _) fun _ => .bind (.changeVariable _ _) fun _ => ?_
    exact .bind (.count (by intro; rfl)) fun _ => .bind (.note _) fun _ => .pure _

/-- A required constraint that finds no method is counted, and the installation fails. -/
theorem install_candid (mark : Mark) (c : ConstraintId) :
    Candid (W := W) (T := T) (install mark c) := by
  unfold install
  refine .bind (.getConstraint c) fun node => .bind (.query _) fun chosen => ?_
  refine .bind (.changeConstraint _ _) fun _ => ?_
  split
  · split
    · -- the fault is counted, and then the failure is thrown
      exact (Fails.bind fun _ => .bind_left (.throw _)).candid
    · exact .bind (.note _) fun _ => .pure _
  · refine .bind (.forM fun v => .changeVariable v _) fun _ => ?_
    exact .bind (seize_candid c _) fun _ => .pure _

/-- A cycle is counted, and enforcing fails whether or not it can be broken. -/
theorem breakCycle_fails (remove : ConstraintId → SolveM W T Unit) (closing : ConstraintId)
    (claimed : VarId) : Fails (breakCycle remove closing claimed) :=
  .bind fun _ => .bind fun _ => .bind fun _ => .bind fun _ => .throw _

/-- Enforcing counts a cycle only to fail. -/
theorem enforce_candid (remove : ConstraintId → SolveM W T Unit) (fuel : Nat) (mark : Mark)
    (c : ConstraintId) : Candid (enforce remove fuel mark c) := by
  unfold enforce
  refine .bind (install_candid mark c) fun installed => ?_
  split
  · exact .pure _
  · refine .bind (.of_obeys (sweep_obeys sameFaults_frame _ _ _)) fun closed => ?_
    split
    · exact (breakCycle_fails remove _ _).candid
    · exact .bind (.changeVariable _ _) fun _ => .pure _

/-- If a whole chain of displacements succeeds, no link of it has counted a fault. -/
theorem displace_candid (remove : ConstraintId → SolveM W T Unit) (fuel : Nat) (mark : Mark)
    (steps : Nat) (c : ConstraintId) : Candid (displace remove fuel mark steps c) := by
  induction steps generalizing c with
  | zero => exact .unfinished
  | succ steps ih =>
    unfold displace
    refine .bind (enforce_candid remove fuel mark c) fun displaced => ?_
    split
    · exact .pure _
    · exact ih _

/-- If adding succeeds, no fault was counted. That the removals on the way may count some does not
matter, since after a removal adding fails. -/
theorem add_candid (fuel : Nat) (c : ConstraintId) : Candid (W := W) (T := T) (add fuel c) := by
  cases fuel with
  | zero => exact .unfinished
  | succ fuel =>
    refine .bind (.bind (.update fun _ => rfl) fun _ => .ask _) fun mark => ?_
    exact displace_candid _ fuel mark fuel c

/-- A failure that is kept comes up in the end. -/
theorem readd_fails (add : ConstraintId → SolveM W T Unit) (cs : List ConstraintId)
    (e : SolveError) : Fails (readd add cs (some e)) := by
  induction cs with
  | nil => exact .throw e
  | cons c cs ih =>
    unfold readd
    refine .bind fun node => ?_
    split
    · refine .bind fun r => ?_
      cases r with
      | ok _ => exact ih
      | error _ => exact ih
    · exact ih

/-- If adding constraints again succeeds, each of them was added without a fault. -/
theorem readd_candid (fuel : Nat) (cs : List ConstraintId) :
    Candid (W := W) (T := T) (readd (add fuel) cs none) := by
  induction cs with
  | nil => exact .pure _
  | cons c cs ih =>
    unfold readd
    refine .bind (.getConstraint c) fun node => ?_
    split
    · -- once one fails, the failure is kept to the end
      exact .attempt (add_candid fuel c) (fun _ => ih) fun e => readd_fails _ cs e
    · exact ih

/-- If removing succeeds, no fault was counted. -/
theorem remove_candid (fuel : Nat) (c : ConstraintId) :
    Candid (W := W) (T := T) (remove fuel c) := by
  unfold remove withdraw
  refine .bind (.getConstraint c) fun node => .bind (.changeConstraint _ _) fun _ => ?_
  refine .bind (deregister_candid c) fun _ => ?_
  split
  · exact .pure _
  · refine .bind (.note _) fun _ => .bind (.bind (.changeVariable _ _) fun _ => ?_) fun cs =>
      readd_candid fuel cs
    exact .bind (.of_obeys (strandedFrom_obeys sameFaults_frame _ _ _)) fun _ => .ask _

/-! ## Enabling and disabling -/

/-- If adding fails, so does settling, after what was done is taken back. -/
theorem settle_candid (fuel : Nat) (c : ConstraintId) :
    Candid (W := W) (T := T) (settle fuel c) := by
  refine .attempt (add_candid fuel c) (fun _ => .pure _) fun e => ?_
  cases e with
  | unsatisfiableRequired failed => exact .bind fun _ => .throw _
  | _ => exact .throw _

/-- If enabling succeeds, no fault was counted. -/
theorem enable_candid (fuel : Nat) (c : ConstraintId) :
    Candid (W := W) (T := T) (enable fuel c) := by
  unfold enable
  refine .bind (.getConstraint c) fun node => ?_
  split
  · exact .pure _
  · refine .bind (.changeConstraint _ _) fun _ => .bind (register_candid c) fun _ => ?_
    refine .bind (.update fun _ => rfl) fun _ => .bind (.count (by intro; rfl)) fun _ => ?_
    exact .bind (.note _) fun _ => settle_candid fuel c

/-- If disabling succeeds, no fault was counted. -/
theorem disable_candid (fuel : Nat) (c : ConstraintId) :
    Candid (W := W) (T := T) (disable fuel c) := by
  unfold disable
  refine .bind (.getConstraint c) fun node => ?_
  split
  · exact .pure _
  · refine .bind (.changeConstraint _ _) fun _ => .bind (.update fun _ => rfl) fun _ => ?_
    refine .bind (.count (by intro; rfl)) fun _ => .bind (.note _) fun _ => ?_
    split
    · exact remove_candid fuel c
    · exact deregister_candid c

/-! ## Constraints and variables -/

/-- Making a variable counts nothing. -/
theorem storeVariable_candid (x : Variable T) : Candid (W := W) (storeVariable x) :=
  .bind (.query _) fun _ => .bind (.update fun _ => rfl) fun _ => .pure _

/-- Storing a constraint counts nothing. -/
theorem storeConstraint_candid (x : Constraint W T) : Candid (storeConstraint x) :=
  .bind (.query _) fun _ => .bind (.update fun _ => rfl) fun _ => .pure _

/-- Making variables counts nothing. -/
theorem newVariables_candid (values : List T) : Candid (W := W) (newVariables values) := by
  induction values with
  | nil => exact .pure _
  | cons value values ih =>
    exact .bind (storeVariable_candid _) fun _ => .bind ih fun _ => .pure _

/-- Finding a variable by its name or making it counts nothing. -/
theorem named_candid (name : String) : Candid (W := W) (T := T) (named name) := by
  refine .bind (.ask _) fun found => ?_
  split
  · exact .pure _
  · exact storeVariable_candid _

/-- Forgetting a variable counts nothing. -/
theorem removeVariable_candid (v : VarId) : Candid (W := W) (T := T) (removeVariable v) := by
  refine .bind (.getVariable v) fun _ => .bind (.ask _) fun cs => ?_
  split
  · exact .update fun _ => rfl
  · exact (Fails.throw _).candid

/-- Making a constraint counts nothing, since it is not enabled. -/
theorem insert_candid (d : Definition W T) : Candid (insert d) :=
  .bind (.forM fun v => .bind (.getVariable v) fun _ => .pure _) fun _ => storeConstraint_candid _

/-- The failure to disable a constraint comes up after it has been removed. -/
theorem removeConstraint_candid (fuel : Nat) (c : ConstraintId) :
    Candid (W := W) (T := T) (removeConstraint fuel c) := by
  refine .bind (.getConstraint c) fun _ => .attempt (disable_candid fuel c) (fun _ => ?_) fun e => ?_
  · refine .bind (.update fun s => ?_) fun _ => .bind (.note _) fun _ => .query _
    cases (s.constraintAt? c).bind Constraint.sink <;> rfl
  · exact .bind fun _ => .bind fun _ => .query e

/-- If the constraint cannot be enabled, this comes up after it has been removed. -/
theorem enableOrRemove_candid (fuel : Nat) (c : ConstraintId) :
    Candid (W := W) (T := T) (enableOrRemove fuel c) := by
  refine .attempt (enable_candid fuel c) (fun _ => .pure _) fun e => .bind fun cleanup => ?_
  cases cleanup with
  | ok _ => exact .throw e
  | error _ => exact .bind fun _ => .throw e

/-- If making and enabling a constraint succeeds, no fault was counted. -/
theorem constrain_candid (fuel : Nat) (d : Definition W T) : Candid (constrain fuel d) :=
  .bind (insert_candid d) fun c => enableOrRemove_candid fuel c

/-- Declaring counts nothing. -/
theorem declare_candid (strength : Strength) (parts : List (Registration W T)) :
    Candid (declare strength parts) :=
  .query fun _ => (Draft.define strength parts).mapError .build

/-- Making an observer counts nothing. -/
theorem insertObserver_candid (sink : VarId) (inputs : List VarId) (f : Observe W T) :
    Candid (insertObserver sink inputs f) := by
  refine .bind (.ask _) fun strength => .bind (declare_candid strength _) fun d => ?_
  exact .bind (insert_candid d) fun c => .bind (.changeConstraint _ _) fun _ => .pure _

/-- If making and enabling an observer succeeds, no fault was counted. -/
theorem observe_candid (fuel : Nat) (inputs : List VarId) (f : Observe W T) :
    Candid (observe fuel inputs f) := by
  refine .bind (storeVariable_candid _) fun sink => ?_
  refine .attempt (insertObserver_candid sink inputs f) (fun c => enableOrRemove_candid fuel c)
    fun e => .bind fun _ => .throw e

/-- Making a copy of a constraint counts nothing. -/
theorem substitute_candid (c : ConstraintId) (f : VarId → VarId) :
    Candid (W := W) (T := T) (substitute c f) :=
  .bind (.getConstraint c) fun _ => .bind (.query _) fun d => insert_candid d

/-- What enabling or disabling the edit has come to is said in the end. -/
theorem write_candid (fuel : Nat) (v : VarId) (value : T) :
    Candid (W := W) (write fuel v value) := by
  refine .bind (.getVariable v) fun x => .bind (.ask _) fun direct => ?_
  split
  · refine .bind (.changeVariable v _) fun _ => .bind (.count (by intro; rfl)) fun _ => .note _
  · refine .bind (.ask _) fun strength => .bind (storeConstraint_candid _) fun c => ?_
    refine .bind (.count (by intro; rfl)) fun _ => .bind (.note _) fun _ => ?_
    -- each of the two results is looked at after the edit has been forgotten, and a failure fails
    -- then
    refine .attempt (enable_candid fuel c) (fun _ => ?_) fun e => ?_
    · refine .attempt (disable_candid fuel c) (fun _ => ?_) fun e => ?_
      · exact .bind (.update fun _ => rfl) fun _ => .bind (.query _) fun _ => .query _
      · exact .bind fun _ => .bind fun _ => .query e
    · exact .bind fun _ => .bind fun _ => .bind_left (.query e)

/-! ## Plans and groups -/

/-- Scheduling counts nothing. -/
theorem schedule_candid (mark : Mark) (fuel : Nat) (hot : OrderedSet ConstraintId) :
    Candid (W := W) (T := T) (schedule mark fuel hot) := by
  induction fuel generalizing hot with
  | zero => exact .unfinished
  | succ fuel ih =>
    unfold schedule
    split
    · exact .pure _
    · refine .bind (.query _) fun ready => ?_
      split
      · exact ih _
      · refine .bind (.changeVariable _ _) fun _ => .bind (.getVariable _) fun x => ?_
        exact .bind (.ask _) fun _ => .bind (ih _) fun _ => .pure _

/-- Planning counts the plan, and no fault. -/
theorem plan_candid (fuel : Nat) (seeds : List Handle) :
    Candid (W := W) (T := T) (plan fuel seeds) := by
  refine .bind (.query _) fun hot => .bind (.bind (.update fun _ => rfl) fun _ => .ask _) fun mark => ?_
  refine .bind (schedule_candid mark fuel hot) fun steps => .bind (.count (by intro; rfl)) fun _ => ?_
  exact .bind (.ask _) fun _ => .bind (.note _) fun _ => .pure _

/-- Executing a plan counts work, and no fault. A plan that is out of date is refused. -/
theorem executePlan_candid (p : Plan) : Candid (W := W) (T := T) (executePlan p) := by
  refine .bind (.ask _) fun current => ?_
  split
  · exact (Fails.bind_left (.throw _)).candid
  · refine .bind (.forM fun step => .of_obeys (execute_obeys sameFaults_frame _ _)) fun _ => ?_
    exact .count (by intro; rfl)

/-- If all members can be enabled, no fault was counted. -/
theorem enableMembers_candid (fuel : Nat) (cs done : List ConstraintId) :
    Candid (W := W) (T := T) (enableMembers fuel cs done) := by
  induction cs generalizing done with
  | nil => exact .pure _
  | cons c cs ih =>
    unfold enableMembers
    refine .bind (.getConstraint c) fun node => ?_
    split
    · exact ih done
    · exact .attempt (enable_candid fuel c) (fun _ => ih _) fun e =>
        .bind fun _ => .bind fun _ => .bind fun _ => .throw e

/-- A failure to disable a member comes up in the end. -/
theorem disableMembers_fails (fuel : Nat) (cs : List ConstraintId) (e : SolveError) :
    Fails (W := W) (T := T) (disableMembers fuel cs (some e)) := by
  induction cs with
  | nil => exact .throw e
  | cons c cs ih =>
    refine .bind fun r => ?_
    cases r with
    | ok _ => exact ih
    | error _ => exact ih

/-- If all members can be disabled, no fault was counted. -/
theorem disableMembers_candid (fuel : Nat) (cs : List ConstraintId) :
    Candid (W := W) (T := T) (disableMembers fuel cs none) := by
  induction cs with
  | nil => exact .pure _
  | cons c cs ih =>
    exact .attempt (disable_candid fuel c) (fun _ => ih) fun e => disableMembers_fails fuel cs e

/-- Building a group enables nothing, and counts nothing. -/
theorem buildGroup_candid (script : GroupScript W T) : Candid (buildGroup script) := by
  -- by induction on the script; groups may stand in groups
  induction script with
  | done => exact .pure _
  | add c rest ih => exact .bind (.getConstraint c) fun _ => .bind ih fun _ => .pure _
  | newVariable value rest ih =>
    exact .bind (storeVariable_candid _) fun _ => .bind ih fun _ => .pure _
  | declare strength parts rest ih =>
    refine .bind (declare_candid strength parts) fun d => ?_
    exact .bind (insert_candid d) fun _ => .bind ih fun _ => .pure _
  | group inner rest ihi ihr => exact .bind ihi fun _ => .bind ihr fun _ => .pure _

end SolveM

namespace Call

open SolveM (Candid)

variable {W T : Type}

/-- Whenever a call succeeds, it has counted no cycle and no unsatisfiable constraint, unless it has
set the counters to zero. -/
theorem run_candid {call : Call W T} (fuel : Nat) (hreset : call ≠ resetMetrics) :
    Candid (call.run fuel) := by
  have hpure : ∀ {α : Type} {op : SolveM W T α} {f : α → Answer W T}, Candid op →
      Candid (do return f (← op)) := fun hop => .bind hop fun _ => .pure _
  cases call with
  | query q => exact .query q.answer
  | newVariable value => exact hpure (SolveM.storeVariable_candid _)
  | newUnassigned => exact hpure (SolveM.storeVariable_candid _)
  | newVariables values => exact hpure (SolveM.newVariables_candid values)
  | named name => exact hpure (SolveM.named_candid name)
  | write v value => exact hpure (SolveM.write_candid fuel v value)
  | removeVariable v => exact hpure (SolveM.removeVariable_candid v)
  | insert d => exact hpure (SolveM.insert_candid d)
  | constrain d => exact hpure (SolveM.constrain_candid fuel d)
  | stay v strength => exact hpure (SolveM.constrain_candid fuel _)
  | edit v value strength => exact hpure (SolveM.constrain_candid fuel _)
  | observe inputs f => exact hpure (SolveM.observe_candid fuel inputs f)
  | substitute c f => exact hpure (SolveM.substitute_candid c f)
  | enable c => exact hpure (SolveM.enable_candid fuel c)
  | disable c => exact hpure (SolveM.disable_candid fuel c)
  | removeConstraint c => exact hpure (SolveM.removeConstraint_candid fuel c)
  | plan seeds => exact hpure (SolveM.plan_candid fuel seeds)
  | executePlan p => exact hpure (SolveM.executePlan_candid p)
  | recompute seed =>
    exact hpure (.bind (SolveM.plan_candid fuel [seed]) fun p => SolveM.executePlan_candid p)
  | enableGroup g => exact hpure (.bind (.note _) fun _ => SolveM.enableMembers_candid fuel _ _)
  | disableGroup g => exact hpure (.bind (.note _) fun _ => SolveM.disableMembers_candid fuel _)
  | buildGroup script => exact hpure (SolveM.buildGroup_candid script)
  | resetMetrics => exact absurd rfl hreset

end Call

end DeltaBlue
