import DeltaBlue.Proofs.Course
import DeltaBlue.Proofs.Halting

/-!
# Which invocations return

An invocation that does not return is stopped because a walk took more steps than its fuel allows.
Some operations walk over the graph themselves; all others are stopped only in what they invoke. So
an invocation returns if and only if its own walk comes to its end and every invocation that it
makes returns (`Invocation.returns_iff_made`). This shows that the rules of `Makes` leave no
invocation out and add none.

Invocations are nested to a bounded depth, since each spends fuel, passes on to an operation of lower
rank, or has fewer rounds before it. Hence an invocation returns if and only if all walks in its course
come to their end (`Invocation.returns_iff_walks`).
-/

namespace DeltaBlue

open SolveM (exec)

/-- Carry out an operation, whatever its result. -/
def Operation.run {W T : Type} (fuel : Nat) : Operation W T → SolveM W T Unit
  | .call x => do let _ ← x.run fuel
  | .pulse v c => SolveM.pulse fuel v c
  | .enableOrRemove c => do let _ ← SolveM.enableOrRemove fuel c
  | .removeConstraint c => SolveM.removeConstraint fuel c
  | .enableMembers cs done => SolveM.enableMembers fuel cs done
  | .undoMembers cs => SolveM.undoMembers fuel cs
  | .disableMembers cs failure => SolveM.disableMembers fuel cs failure
  | .enable c => SolveM.enable fuel c
  | .settle c => SolveM.settle fuel c
  | .rollBackEnable c failed => SolveM.rollBackEnable fuel c failed
  | .restore c failed => SolveM.restore fuel c failed
  | .disable c => SolveM.disable fuel c
  | .add c => SolveM.add fuel c
  | .displace mark steps c => SolveM.displace (SolveM.remove fuel) fuel mark steps c
  | .enforce mark c => do let _ ← SolveM.enforce (SolveM.remove fuel) fuel mark c
  | .remove c => SolveM.remove fuel c
  | .vacate output => do let _ ← SolveM.vacate fuel output
  | .readd cs failure => SolveM.readd (SolveM.add fuel) cs failure

namespace Invocation

variable {W T : Type}

/-- The invocation comes to its end within its fuel. -/
def Returns (i : Invocation W T) : Prop := (exec (i.operation.run i.fuel) i.machine).isSome

/-- What the operation does itself comes to its end within the fuel. -/
def Walks (i : Invocation W T) : Prop :=
  match i.operation with
  | .call (.plan seeds) => (exec (SolveM.plan i.fuel seeds) i.machine).isSome
  | .call (.recompute seed) => (exec (SolveM.plan i.fuel [seed]) i.machine).isSome
  | .add _ => i.fuel ≠ 0
  | .displace _ steps _ => steps ≠ 0
  | .enforce mark c => ∀ r m', exec (SolveM.install mark c) i.machine = some (.ok (some r), m') →
    (exec (SolveM.sweep mark i.fuel (.singleton c)) m').isSome
  | .vacate output => (exec (SolveM.vacate i.fuel output) i.machine).isSome
  | _ => True

/-- The invocation returns exactly if its own walk ends and what it makes returns. That this holds is
shown operation by operation below. -/
def Accounted (i : Invocation W T) : Prop :=
  i.Returns ↔ i.Walks ∧ ∀ j, SolveM.Makes i j → j.Returns

end Invocation

namespace SolveM

variable {W T α β : Type} {m m' : Machine W T} {fuel : Nat} {c : ConstraintId}

/-! ## Programs that return -/

section

variable {op : SolveM W T α} {f : α → SolveM W T β}

/-- An operation that always returns has an outcome on every machine. -/
theorem Total.isSome (h : Total op) : (exec op m).isSome := Option.isSome_iff_exists.2 (h m)

/-- What is followed by something else returns if both do. -/
theorem isSome_bind : (exec (op >>= f) m).isSome ↔ (exec op m).isSome ∧
    ∀ a m', exec op m = some (.ok a, m') → (exec (f a) m').isSome := by
  rw [exec_bind]
  cases exec op m with
  | none => simp
  | some p =>
    obtain ⟨r, m'⟩ := p
    cases r <;> simp

/-- After what always returns. -/
theorem isSome_after (h : Total op) : (exec (op >>= f) m).isSome ↔
    ∀ a m', exec op m = some (.ok a, m') → (exec (f a) m').isSome := by
  rw [isSome_bind, and_iff_right h.isSome]

/-- Before what always returns. -/
theorem isSome_before (h : ∀ a, Total (f a)) : (exec (op >>= f) m).isSome ↔ (exec op m).isSome := by
  rw [isSome_bind, and_iff_left fun a _ _ => (h a).isSome]

/-- What is done whether an attempt fails or not. -/
theorem isSome_attempt {f : Except SolveError α → SolveM W T β} :
    (exec (attempt op >>= f) m).isSome ↔ (exec op m).isSome ∧
      ∀ r m', exec op m = some (r, m') → (exec (f r) m').isSome := by
  rw [isSome_bind, exec_attempt]
  cases exec op m with
  | none => simp
  | some p =>
    obtain ⟨r, m'⟩ := p
    simp

/-- What begins with looking up a constraint returns if the rest does on the constraint found. -/
theorem isSome_getConstraint {f : Constraint W T → SolveM W T β} :
    (exec (getConstraint c >>= f) m).isSome ↔
      ∀ node, m.solver.constraintAt? c = some node → (exec (f node) m).isSome := by
  rw [isSome_bind, getConstraint, exec_query, Solver.lookupConstraint]
  cases m.solver.constraintAt? c with
  | none => simp
  | some node => simp

/-- What begins with looking up a variable returns if the rest does on the variable found. -/
theorem isSome_getVariable {v : VarId} {f : Variable T → SolveM W T β} :
    (exec (getVariable v >>= f) m).isSome ↔
      ∀ x, m.solver.variableAt? v = some x → (exec (f x) m).isSome := by
  rw [isSome_bind, getVariable, exec_query, Solver.lookupVariable]
  cases m.solver.variableAt? v with
  | none => simp
  | some x => simp

/-- A question is answered on the machine as it is. -/
theorem exec_ask_bind {g : Solver W T → α} :
    exec (ask g >>= f) m = exec (f (g m.solver)) m := exec_bind _ f m

/-- A notice is put on top of the journal, and the rest follows. -/
theorem exec_note_bind {n : Notice T} {f : Unit → SolveM W T β} :
    exec (note n >>= f) m = exec (f ()) { m with journal := n :: m.journal } := exec_bind _ f m

/-- A failure that is only noted. -/
theorem isSome_noteFailure {op : SolveM W T Unit} {n : SolveError → Notice T} :
    (exec (do if let .error e := ← attempt op then note (n e)) m).isSome ↔ (exec op m).isSome := by
  rw [isSome_attempt, and_iff_left]
  intro r m' _
  cases r with
  | ok _ => exact Total.isSome (.pure _)
  | error e => exact Total.isSome (.note _)

end

/-- What follows a failure that is only noted. -/
theorem noteFailure_bind {op : SolveM W T Unit} {n : SolveError → Notice T}
    {f : Unit → SolveM W T β} : (attempt op >>= fun r =>
      match r with
      | .error e => note (n e) >>= f
      | _ => f ()) = (do if let .error e := ← attempt op then note (n e)) >>= f := by
  rw [bind_assoc]
  refine bind_congr fun r => ?_
  cases r with
  | ok _ => exact (pure_bind _ _).symm
  | error e => rfl

/-! ## The operations on the graph -/

/-- The first constraint is added if it is idle, and the rest follows with the first failure so
far. -/
theorem readd_cons (add : ConstraintId → SolveM W T Unit) (cs : List ConstraintId)
    (failure : Option SolveError) :
    readd add (c :: cs) failure = getConstraint c >>= fun node =>
      if node.enabled && !node.isEnforcing then
        attempt (add c) >>= fun r => readd add cs (firstFailure failure r)
      else readd add cs failure := by
  conv_lhs => unfold readd
  refine bind_congr fun node => ?_
  split
  · exact bind_congr fun r => by cases r <;> rfl
  · rfl

/-- Adding a list again makes the addition of its first idle constraint, and then the rest of the
list. -/
theorem readd_accounted (cs : List ConstraintId) (failure : Option SolveError) :
    Invocation.Accounted (W := W) ⟨fuel, .readd cs failure, m⟩ := by
  cases cs with
  | nil =>
    refine iff_of_true ?_ ⟨trivial, by rintro _ ⟨⟩⟩
    cases failure with
    | none => exact Total.isSome (.pure _)
    | some e => exact Total.isSome (.throw _)
  | cons c cs =>
    change (exec (readd (add fuel) (c :: cs) failure) m).isSome ↔ _
    rw [readd_cons, isSome_getConstraint]
    constructor
    · refine fun h => ⟨trivial, fun j hj => ?_⟩
      cases hj with
      | readdAdd hidle =>
        obtain ⟨node, hnode, _⟩ := id hidle
        have hadd := h node hnode
        rw [if_pos ((Solver.idle_iff hnode).1 hidle), isSome_attempt] at hadd
        exact hadd.1
      | readdNext hidle hrun =>
        obtain ⟨node, hnode, _⟩ := id hidle
        have hnext := h node hnode
        rw [if_pos ((Solver.idle_iff hnode).1 hidle), isSome_attempt] at hnext
        exact hnext.2 _ _ hrun
      -- a constraint that is enforced already, or is not enabled, is passed over
      | readdSkip hlive hidle =>
        obtain ⟨node, hnode⟩ := Option.isSome_iff_exists.1 hlive
        have hskip := h node hnode
        rwa [if_neg fun hi => hidle ((Solver.idle_iff hnode).2 hi)] at hskip
    · rintro ⟨-, h⟩ node hnode
      split
      · next hi =>
        have hidle := (Solver.idle_iff hnode).2 hi
        exact isSome_attempt.2 ⟨h _ (.readdAdd hidle), fun r m' hrun => h _ (.readdNext hidle hrun)⟩
      · next hi =>
        exact h _ (.readdSkip (Option.isSome_iff_exists.2 ⟨node, hnode⟩) fun hidle =>
          hi ((Solver.idle_iff hnode).1 hidle))

/-- What a removal does before its walk always returns. -/
theorem total_depart (c : ConstraintId) : Total (W := W) (T := T) (depart c) := by
  unfold depart
  refine (Total.getConstraint c).bind fun node => (Total.changeConstraint c _).bind fun _ => ?_
  refine (total_deregister c).bind fun _ => ?_
  cases node.output? with
  | none => exact .pure _
  | some o => exact (Total.note _).bind fun _ => .pure _

/-- Vacating an output is a walk of its own, and makes nothing. -/
theorem vacate_accounted (output : VarId) :
    Invocation.Accounted (W := W) (T := T) ⟨fuel, .vacate output, m⟩ :=
  (isSome_before fun _ => .pure _).trans ⟨fun h => ⟨h, by rintro _ ⟨⟩⟩, And.left⟩

/-- A removal makes the vacating of the output, and the adding of what was left stranded. -/
theorem remove_accounted (c : ConstraintId) :
    Invocation.Accounted (W := W) (T := T) ⟨fuel, .remove c, m⟩ := by
  change (exec (withdraw (add fuel) fuel c) m).isSome ↔ _
  rw [withdraw_depart, isSome_after (total_depart c)]
  constructor
  · intro h
    refine ⟨trivial, fun j hj => ?_⟩
    cases hj with
    | vacate hrun => exact (isSome_before fun _ => .pure _).2 (isSome_bind.1 (h _ _ hrun)).1
    | readd hrun hvacate => exact (isSome_bind.1 (h _ _ hrun)).2 _ _ hvacate
  · rintro ⟨-, h⟩ output? m' hrun
    -- a constraint that was not enforced leaves no output to vacate
    cases output? with
    | none => exact Total.isSome (.pure _)
    | some output =>
      refine isSome_bind.2 ⟨(isSome_before fun _ => .pure _).1 (h _ (.vacate hrun)), ?_⟩
      exact fun cs m'' hvacate => h _ (.readd hrun hvacate)

/-- Breaking a cycle returns if the removal of the closing constraint does. -/
theorem isSome_breakCycle {remove : ConstraintId → SolveM W T Unit} {closing : ConstraintId}
    {claimed : VarId} : (exec (breakCycle remove closing claimed) m).isSome ↔
      ∀ m', exec (expel closing claimed) m = some (.ok (), m') →
        (exec (remove closing) m').isSome := by
  rw [breakCycle_eq, isSome_after (total_expel closing claimed)]
  exact ⟨fun h m' hrun => (isSome_before fun _ => .throw _).1 (h _ m' hrun),
    fun h _ m' hrun => (isSome_before fun _ => .throw _).2 (h m' hrun)⟩

/-- Enforcing walks once over what follows the output, and makes a removal if the walk finds a
cycle. -/
theorem enforce_accounted (mark : Mark) (c : ConstraintId) :
    Invocation.Accounted (W := W) (T := T) ⟨fuel, .enforce mark c, m⟩ := by
  refine (isSome_before fun _ => .pure _).trans ?_
  unfold enforce
  rw [isSome_after (total_install mark c)]
  constructor
  · intro h
    have hsweep : ∀ r m', exec (install mark c) m = some (.ok (some r), m') →
        (exec (sweep mark fuel (.singleton c)) m').isSome := fun r m' hrun =>
      (isSome_bind.1 (h _ _ hrun)).1
    refine ⟨hsweep, fun j hj => ?_⟩
    cases hj with
    | breakCycle hinstall hwalk hrun =>
      exact isSome_breakCycle.1 ((isSome_bind.1 (h _ _ hinstall)).2 _ _ hwalk) _ hrun
  · rintro ⟨hsweep, h⟩ installed m₁ hinstall
    cases installed with
    | none => exact Total.isSome (.pure _)
    | some r =>
      refine isSome_bind.2 ⟨hsweep _ _ hinstall, fun found m₂ hwalk => ?_⟩
      -- without a cycle nothing is made after the walk
      cases found with
      | none => exact Total.isSome ((Total.changeVariable _ _).bind fun _ => .pure _)
      | some p => exact isSome_breakCycle.2 fun m₃ hrun => h _ (.breakCycle hinstall hwalk hrun)

/-- The cascade makes the enforcing of the next constraint, and the cascade from what this
displaces. -/
theorem displace_accounted (mark : Mark) (steps : Nat) (c : ConstraintId) :
    Invocation.Accounted (W := W) (T := T) ⟨fuel, .displace mark steps c, m⟩ := by
  cases steps with
  | zero => exact iff_of_false Bool.false_ne_true fun h => h.1 rfl
  | succ steps =>
    change (exec (displace (remove fuel) fuel mark (steps + 1) c) m).isSome ↔ _
    unfold displace
    rw [isSome_bind]
    constructor
    · rintro ⟨henforce, hnext⟩
      refine ⟨Nat.succ_ne_zero _, fun j hj => ?_⟩
      cases hj with
      | enforce => exact (isSome_before fun _ => .pure _).2 henforce
      | displace hrun => exact hnext _ _ hrun
    · rintro ⟨-, h⟩
      refine ⟨(isSome_before fun _ => .pure _).1 (h _ .enforce), fun next? m' hrun => ?_⟩
      cases next? with
      | none => exact Total.isSome (.pure _)
      | some next => exact h _ (.displace hrun)

/-- Taking a new mark always returns. -/
theorem total_nextMark : Total (W := W) (T := T) nextMark := (Total.update _).bind fun _ => .ask _

/-- Adding takes a mark and makes the cascade, with less fuel. -/
theorem add_accounted (c : ConstraintId) :
    Invocation.Accounted (W := W) (T := T) ⟨fuel, .add c, m⟩ := by
  cases fuel with
  | zero => exact iff_of_false Bool.false_ne_true fun h => h.1 rfl
  | succ fuel =>
    change (exec (nextMark >>= fun mark => displace (remove fuel) fuel mark fuel c) m).isSome ↔ _
    rw [isSome_after total_nextMark]
    constructor
    · intro h
      refine ⟨Nat.succ_ne_zero _, fun j hj => ?_⟩
      cases hj with
      | pass hrun => exact h _ _ hrun
    · exact fun h mark m' hrun => h.2 _ (.pass hrun)

/-! ## Enabling and disabling -/

/-- After a rollback at most one constraint is added again. -/
theorem restore_accounted (c failed : ConstraintId) :
    Invocation.Accounted (W := W) (T := T) ⟨fuel, .restore c failed, m⟩ := by
  change (exec (restore fuel c failed) m).isSome ↔ _
  unfold restore
  rw [exec_ask_bind]
  constructor
  · refine fun h => ⟨trivial, fun j hj => ?_⟩
    cases hj with
    | restoreAdd hne hidle =>
      rw [if_pos ⟨hne, Solver.idle_iff_any.1 hidle⟩] at h
      exact isSome_noteFailure.1 h
  · rintro ⟨-, h⟩
    split
    · next hi =>
      exact isSome_noteFailure.2 (h _ (.restoreAdd hi.1 (Solver.idle_iff_any.2 hi.2)))
    · exact Total.isSome (.pure _)

/-- Taking an enabling back makes a removal if the constraint is enforced, and then the
restoring. -/
theorem rollBackEnable_accounted (c failed : ConstraintId) :
    Invocation.Accounted (W := W) (T := T) ⟨fuel, .rollBackEnable c failed, m⟩ := by
  change (exec (rollBackEnable fuel c failed) m).isSome ↔ _
  cases hnode : m.solver.constraintAt? c with
  | none =>
    refine iff_of_true ?_ ⟨trivial, fun j hj => ?_⟩
    · unfold rollBackEnable
      rw [exec_note_bind, exec_ask_bind]
      simp only [hnode]
      exact Total.isSome (.pure _)
    · cases hj with
      | rollBackRemove hn => cases hnode.symm.trans hn
      | restore hn => cases hnode.symm.trans hn
  | some node =>
    -- the undoing is set apart from what follows it, since a failure in it is only noted
    have heq : exec (rollBackEnable fuel c failed) m = exec ((do
        note (.enableRolledBack failed c)
        changeConstraint c fun x => { x with enabled := false }) >>= fun _ => (do
          if let .error e := ← attempt (if node.isEnforcing then remove fuel c else deregister c) then
            note (.rollbackFailed c e)) >>= fun _ => restore fuel c failed) m := by
      rw [bind_assoc]
      unfold rollBackEnable
      rw [exec_note_bind, exec_ask_bind, exec_note_bind]
      simp only [hnode]
      exact congrArg (exec · _) (bind_congr fun _ => noteFailure_bind)
    rw [heq, isSome_after ((Total.note _).bind fun _ => .changeConstraint _ _)]
    constructor
    · refine fun h => ⟨trivial, fun j hj => ?_⟩
      cases hj with
      | rollBackRemove hn henf hrun =>
        obtain rfl := Option.some.inj (hnode.symm.trans hn)
        have hundo := isSome_noteFailure.1 (isSome_bind.1 (h _ _ hrun)).1
        rwa [if_pos henf] at hundo
      | restore hn hrun hundo =>
        obtain rfl := Option.some.inj (hnode.symm.trans hn)
        exact (isSome_bind.1 (h _ _ hrun)).2 _ _ hundo
    · rintro ⟨-, h⟩ _ m₁ hrun
      refine isSome_bind.2 ⟨isSome_noteFailure.2 ?_, fun _ m₂ hundo =>
        h _ (.restore hnode hrun hundo)⟩
      split
      · next henf => exact h _ (.rollBackRemove hnode henf hrun)
      · exact Total.isSome (total_deregister c)

/-- The first enforcement makes an addition, and a rollback if that fails for another constraint. -/
theorem settle_accounted (c : ConstraintId) :
    Invocation.Accounted (W := W) (T := T) ⟨fuel, .settle c, m⟩ := by
  change (exec (settle fuel c) m).isSome ↔ _
  unfold settle
  rw [isSome_attempt]
  constructor
  · rintro ⟨hadd, hrest⟩
    refine ⟨trivial, fun j hj => ?_⟩
    cases hj with
    | settleAdd => exact hadd
    | rollBack hrun => exact (isSome_before fun _ => .throw _).1 (hrest _ _ hrun)
  · rintro ⟨-, h⟩
    refine ⟨h _ .settleAdd, fun r m' hrun => ?_⟩
    split
    · exact Total.isSome (.pure _)
    · exact (isSome_before fun _ => .throw _).2 (h _ (.rollBack hrun))
    · exact Total.isSome (.throw _)

/-- Enabling a constraint that is off makes its first enforcement. -/
theorem enable_accounted (c : ConstraintId) :
    Invocation.Accounted (W := W) (T := T) ⟨fuel, .enable c, m⟩ := by
  change (exec (enable fuel c) m).isSome ↔ _
  rw [enable_eq, isSome_getConstraint]
  constructor
  · refine fun h => ⟨trivial, fun j hj => ?_⟩
    cases hj with
    | settle hnode hoff hrun =>
      have hsettle := h _ hnode
      rw [hoff, if_neg Bool.false_ne_true, isSome_after (total_enter c)] at hsettle
      exact hsettle _ _ hrun
  · rintro ⟨-, h⟩ node hnode
    cases hoff : node.enabled with
    | true => exact Total.isSome (.pure _)
    | false =>
      rw [if_neg Bool.false_ne_true, isSome_after (total_enter c)]
      exact fun _ m' hrun => h _ (.settle hnode hoff hrun)

/-- Disabling a constraint that is enforced makes its removal. -/
theorem disable_accounted (c : ConstraintId) :
    Invocation.Accounted (W := W) (T := T) ⟨fuel, .disable c, m⟩ := by
  have heq : (disable fuel c : SolveM W T Unit) = getConstraint c >>= fun node =>
      if node.enabled = true then (do
        changeConstraint c fun x => { x with enabled := false }
        update fun s => { s with changes := s.changes + 1 }
        count fun x => { x with disables := x.disables + 1 }
        note (.disabling c)) >>= fun _ =>
          if node.isEnforcing then remove fuel c else deregister c
      else pure () := by
    unfold disable
    refine bind_congr fun node => ?_
    cases node.enabled with
    | false => rfl
    | true => simp only [bind_assoc]; rfl
  change (exec (disable fuel c) m).isSome ↔ _
  rw [heq, isSome_getConstraint]
  constructor
  · refine fun h => ⟨trivial, fun j hj => ?_⟩
    cases hj with
    | disableRemove hnode hen henf hrun =>
      have hleave := h _ hnode
      rw [if_pos hen] at hleave
      have := (isSome_bind.1 hleave).2 _ _ hrun
      rwa [if_pos henf] at this
  · rintro ⟨-, h⟩ node hnode
    split
    · next hen =>
      rw [isSome_after ((Total.changeConstraint _ _).bind fun _ => (Total.update _).bind fun _ =>
        (Total.count _).bind fun _ => .note _)]
      intro _ m' hrun
      split
      · next henf => exact h _ (.disableRemove hnode hen henf hrun)
      · exact Total.isSome (total_deregister c)
    · exact Total.isSome (.pure _)

/-- Removing a constraint from the solver makes its disabling. -/
theorem removeConstraint_accounted (c : ConstraintId) :
    Invocation.Accounted (W := W) (T := T) ⟨fuel, .removeConstraint c, m⟩ := by
  change (exec (removeConstraint fuel c) m).isSome ↔ _
  unfold removeConstraint
  have hrest : ∀ result : Except SolveError Unit, Total (W := W) (T := T) (do
      discard c
      note (.removed c)
      query fun _ => result) := fun result =>
    (Total.update _).bind fun _ => (Total.note _).bind fun _ => .query _
  rw [isSome_getConstraint]
  constructor
  · refine fun h => ⟨trivial, fun j hj => ?_⟩
    cases hj with
    | switchOff hlive =>
      obtain ⟨node, hnode⟩ := Option.isSome_iff_exists.1 hlive
      exact (isSome_attempt.1 (h node hnode)).1
  · rintro ⟨-, h⟩ node hnode
    have hdisable := h _ (.switchOff (Option.isSome_iff_exists.2 ⟨node, hnode⟩))
    exact isSome_attempt.2 ⟨hdisable, fun result _ _ => (hrest result).isSome⟩

/-- A constraint that cannot be enabled is removed from the solver. -/
theorem enableOrRemove_accounted (c : ConstraintId) :
    Invocation.Accounted (W := W) (T := T) ⟨fuel, .enableOrRemove c, m⟩ := by
  refine (isSome_before fun _ => .pure _).trans ?_
  unfold enableOrRemove
  rw [isSome_attempt]
  constructor
  · rintro ⟨henable, hrest⟩
    refine ⟨trivial, fun j hj => ?_⟩
    cases hj with
    | tryEnable => exact henable
    | giveUp hrun => exact (isSome_attempt.1 (hrest _ _ hrun)).1
  · rintro ⟨-, h⟩
    refine ⟨h _ .tryEnable, fun r m' hrun => ?_⟩
    cases r with
    | ok _ => exact Total.isSome (.pure _)
    | error e =>
      refine isSome_attempt.2 ⟨h _ (.giveUp hrun), fun cleanup _ _ => ?_⟩
      cases cleanup with
      | ok _ => exact Total.isSome (.throw _)
      | error _ => exact Total.isSome ((Total.note _).bind fun _ => .throw _)

/-- A write through makes the enabling of its edit, and then the disabling, whatever came of the
first. -/
theorem pulse_accounted (v : VarId) (c : ConstraintId) :
    Invocation.Accounted (W := W) (T := T) ⟨fuel, .pulse v c, m⟩ := by
  have hend : ∀ result cleanup : Except SolveError Unit, Total (W := W) (T := T) (do
      update fun s => { s with constraints := s.constraints.erase c }
      query fun _ => result
      query fun _ => cleanup) := fun _ _ =>
    (Total.update _).bind fun _ => (Total.query _).bind fun _ => .query _
  have heq : (pulse fuel v c : SolveM W T Unit) = (do
      count fun x => { x with edits := x.edits + 1 }
      note (.writesThrough v c)) >>= fun _ =>
        attempt (enable fuel c) >>= fun result => attempt (disable fuel c) >>= fun cleanup => (do
          update fun s => { s with constraints := s.constraints.erase c }
          query fun _ => result
          query fun _ => cleanup) := by
    simp only [pulse, bind_assoc]
  change (exec (pulse fuel v c) m).isSome ↔ _
  rw [heq, isSome_after ((Total.count _).bind fun _ => .note _)]
  constructor
  · refine fun h => ⟨trivial, fun j hj => ?_⟩
    cases hj with
    | pulseEnable hrun => exact (isSome_attempt.1 (h _ _ hrun)).1
    | pulseDisable hrun henable =>
      exact (isSome_attempt.1 ((isSome_attempt.1 (h _ _ hrun)).2 _ _ henable)).1
  · rintro ⟨-, h⟩ _ m₁ hrun
    refine isSome_attempt.2 ⟨h _ (.pulseEnable hrun), fun result m₂ henable => ?_⟩
    refine isSome_attempt.2 ⟨h _ (.pulseDisable hrun henable), fun cleanup m₃ _ => ?_⟩
    exact (hend result cleanup).isSome

/-! ## Groups -/

/-- Undoing members makes the disabling of each in turn. -/
theorem undoMembers_accounted (cs : List ConstraintId) :
    Invocation.Accounted (W := W) (T := T) ⟨fuel, .undoMembers cs, m⟩ := by
  cases cs with
  | nil => exact iff_of_true (Total.isSome (.pure _)) ⟨trivial, by rintro _ ⟨⟩⟩
  | cons c cs =>
    have heq : (undoMembers fuel (c :: cs) : SolveM W T Unit) = (do
        if let .error e := ← attempt (disable fuel c) then note (.memberUndoFailed c e)) >>=
          fun _ => undoMembers fuel cs := noteFailure_bind
    change (exec (undoMembers fuel (c :: cs)) m).isSome ↔ _
    rw [heq, isSome_bind, isSome_noteFailure]
    constructor
    · rintro ⟨hdisable, hnext⟩
      refine ⟨trivial, fun j hj => ?_⟩
      cases hj with
      | undoMember => exact hdisable
      | undoNext hrun => exact hnext _ _ hrun
    · exact fun h => ⟨h.2 _ .undoMember, fun _ m' hrun => h.2 _ (.undoNext hrun)⟩

/-- Enabling members makes the enabling of the first that is off, then the rest, or else the
undoing. -/
theorem enableMembers_accounted (cs done : List ConstraintId) :
    Invocation.Accounted (W := W) (T := T) ⟨fuel, .enableMembers cs done, m⟩ := by
  cases cs with
  | nil => exact iff_of_true (Total.isSome (.pure _)) ⟨trivial, by rintro _ ⟨⟩⟩
  | cons c cs =>
    change (exec (enableMembers fuel (c :: cs) done) m).isSome ↔ _
    unfold enableMembers
    rw [isSome_getConstraint]
    constructor
    · refine fun h => ⟨trivial, fun j hj => ?_⟩
      cases hj with
      | skipMember hen =>
        obtain ⟨node, hnode, hen⟩ := hen
        have hskip := h node hnode
        rwa [if_pos hen] at hskip
      | enableMember hnode hoff =>
        have hmember := h _ hnode
        rw [if_neg (Bool.eq_false_iff.1 hoff), isSome_attempt] at hmember
        exact hmember.1
      | nextMember hnode hoff hrun =>
        have hmember := h _ hnode
        rw [if_neg (Bool.eq_false_iff.1 hoff), isSome_attempt] at hmember
        exact hmember.2 _ _ hrun
      | undo hnode hoff hrun hnote =>
        have hmember := h _ hnode
        rw [if_neg (Bool.eq_false_iff.1 hoff), isSome_attempt] at hmember
        have hundo := hmember.2 _ _ hrun
        simp only [exec_ask_bind, exec_note_bind] at hundo
        obtain ⟨_, rfl⟩ := Prod.mk.inj (Option.some.inj hnote)
        exact (isSome_before fun _ => .throw _).1 hundo
    · rintro ⟨-, h⟩ node hnode
      split
      · next hen => exact h _ (.skipMember ⟨node, hnode, hen⟩)
      · next hen =>
        have hoff := Bool.eq_false_iff.2 hen
        refine isSome_attempt.2 ⟨h _ (.enableMember hnode hoff), fun r m₁ hrun => ?_⟩
        -- after a failure the members enabled so far are disabled again
        cases r with
        | ok _ => exact h _ (.nextMember hnode hoff hrun)
        | error e =>
          simp only [exec_ask_bind, exec_note_bind]
          exact (isSome_before fun _ => .throw _).2 (h _ (.undo hnode hoff hrun rfl))

/-- Disabling members makes the disabling of each in turn, whatever fails. -/
theorem disableMembers_accounted (cs : List ConstraintId) (failure : Option SolveError) :
    Invocation.Accounted (W := W) (T := T) ⟨fuel, .disableMembers cs failure, m⟩ := by
  cases cs with
  | nil =>
    refine iff_of_true ?_ ⟨trivial, by rintro _ ⟨⟩⟩
    cases failure with
    | none => exact Total.isSome (.pure _)
    | some e => exact Total.isSome (.throw _)
  | cons c cs =>
    have heq : (disableMembers fuel (c :: cs) failure : SolveM W T Unit) =
        attempt (disable fuel c) >>= fun r => disableMembers fuel cs (firstFailure failure r) :=
      bind_congr fun r => by cases r <;> rfl
    change (exec (disableMembers fuel (c :: cs) failure) m).isSome ↔ _
    rw [heq, isSome_attempt]
    constructor
    · rintro ⟨hdisable, hnext⟩
      refine ⟨trivial, fun j hj => ?_⟩
      cases hj with
      | disableMember => exact hdisable
      | disableNext hrun => exact hnext _ _ hrun
    · exact fun h => ⟨h.2 _ .disableMember, fun _ m' hrun => h.2 _ (.disableNext hrun)⟩

/-! ## Calls -/

/-- What a call answers does not matter to whether it returns. -/
theorem returns_answer {call : Call W T} {op : SolveM W T α} {f : α → Answer W T}
    (hrun : call.run fuel = op >>= fun a => pure (f a)) :
    Invocation.Returns ⟨fuel, .call call, m⟩ ↔ (exec op m).isSome := by
  refine (isSome_before fun _ => .pure _).trans ?_
  simp only [hrun]
  exact isSome_before fun _ => .pure _

/-- A call that stores a constraint returns if what follows the storing does. -/
theorem isSome_run_store {call : Call W T} {store : SolveM W T ConstraintId}
    (hstore : call.store? = some store) : (exec (call.run fuel) m).isSome ↔
      ∀ c m', exec store m = some (.ok c, m') → (exec (enableOrRemove fuel c) m').isSome := by
  cases call with
  | constrain d =>
    obtain rfl := Option.some.inj hstore
    exact (isSome_before fun _ => .pure _).trans (isSome_after (total_insert d))
  | stay v strength =>
    obtain rfl := Option.some.inj hstore
    exact (isSome_before fun _ => .pure _).trans (isSome_after (total_insert _))
  | edit v value strength =>
    obtain rfl := Option.some.inj hstore
    exact (isSome_before fun _ => .pure _).trans (isSome_after (total_insert _))
  | observe inputs f =>
    obtain rfl := Option.some.inj hstore
    refine (isSome_before fun _ => .pure _).trans ?_
    unfold observe newUnassigned
    rw [isSome_after (total_storeVariable _)]
    constructor
    · -- observing stores the sink before the constraint
      intro h c m₂ hrun
      obtain ⟨sink, m₁, hsink, hinsert⟩ := exec_bind_eq_ok.1 hrun
      exact (isSome_attempt.1 (h sink m₁ hsink)).2 _ m₂ hinsert
    · intro h sink m₁ hsink
      refine isSome_attempt.2 ⟨(total_insertObserver sink inputs f).isSome, fun r m₂ hrun => ?_⟩
      cases r with
      | ok c =>
        exact h c m₂ (exec_bind_eq_ok.2 ⟨sink, m₁, hsink, hrun⟩)
      | error e => exact Total.isSome ((Total.update _).bind fun _ => .throw _)
  | _ => cases hstore

/-- A call that stores a constraint makes the enabling of what it has stored. -/
theorem store_accounted {call : Call W T} {store : SolveM W T ConstraintId}
    (hstore : call.store? = some store) : Invocation.Accounted ⟨fuel, .call call, m⟩ := by
  refine (isSome_before fun _ => .pure _).trans ((isSome_run_store hstore).trans ?_)
  constructor
  · refine fun h => ⟨?_, fun j hj => ?_⟩
    · cases call with
      | plan seeds => cases hstore
      | recompute seed => cases hstore
      | _ => trivial
    · cases hj with
      | store hs hrun =>
        obtain rfl := Option.some.inj (hstore.symm.trans hs)
        exact (isSome_before fun _ => .pure _).2 (h _ _ hrun)
      | _ => cases hstore
  · exact fun h c m' hrun => (isSome_before fun _ => .pure _).1 (h.2 _ (.store hstore hrun))

/-- A write makes a pulse, unless the value is stored directly. -/
theorem write_accounted (v : VarId) (value : T) :
    Invocation.Accounted (W := W) (T := T) ⟨fuel, .call (.write v value), m⟩ := by
  refine (returns_answer rfl).trans ?_
  have hthrough : (exec (writeThrough fuel v value) m).isSome ↔ ∀ c m',
      exec (storeConstraint (writer m.solver v value)) m = some (.ok c, m') →
        (exec (pulse fuel v c) m').isSome := by
    rw [writeThrough_eq, exec_ask_bind]
    exact isSome_after (total_storeConstraint _)
  unfold write
  rw [isSome_getVariable]
  constructor
  · refine fun h => ⟨trivial, fun j hj => ?_⟩
    cases hj with
    | store hstore => cases hstore
    | write hx hdirect hrun =>
      have hwrite := h _ hx
      rw [exec_ask_bind] at hwrite
      change (exec (if writesDirectly m.solver _ = true then _ else _) m).isSome at hwrite
      rw [if_neg (Bool.eq_false_iff.1 hdirect), hthrough] at hwrite
      exact hwrite _ _ hrun
  · rintro ⟨-, h⟩ x hx
    rw [exec_ask_bind]
    split
    · exact Total.isSome ((Total.changeVariable v _).bind fun _ => (Total.count _).bind fun _ =>
        .note _)
    · next hdirect =>
      exact hthrough.2 fun c m' hrun => h _ (.write hx (Bool.eq_false_iff.2 hdirect) hrun)

/-- A call without a walk that makes no invocation. -/
theorem total_accounted {call : Call W T} {op : SolveM W T α} {f : α → Answer W T}
    (hrun : call.run fuel = op >>= fun a => pure (f a)) (htotal : Total op)
    (hwalks : Invocation.Walks ⟨fuel, .call call, m⟩)
    (hmakes : ∀ j, ¬ Makes ⟨fuel, .call call, m⟩ j) : Invocation.Accounted ⟨fuel, .call call, m⟩ :=
  iff_of_true ((returns_answer hrun).2 htotal.isSome) ⟨hwalks, fun j hj => absurd hj (hmakes j)⟩

/-- Every call returns exactly if its own walk ends and what it makes returns. -/
theorem call_accounted (call : Call W T) : Invocation.Accounted ⟨fuel, .call call, m⟩ := by
  cases call with
  | constrain d => exact store_accounted rfl
  | stay v strength => exact store_accounted rfl
  | edit v value strength => exact store_accounted rfl
  | observe inputs f => exact store_accounted rfl
  | write v value => exact write_accounted v value
  | enable c =>
    refine (returns_answer rfl).trans
      ⟨fun h => ⟨trivial, fun j hj => ?_⟩, fun h => h.2 _ .callEnable⟩
    cases hj with
    | store hs => cases hs
    | callEnable => exact h
  | disable c =>
    refine (returns_answer rfl).trans
      ⟨fun h => ⟨trivial, fun j hj => ?_⟩, fun h => h.2 _ .callDisable⟩
    cases hj with
    | store hs => cases hs
    | callDisable => exact h
  | removeConstraint c =>
    refine (returns_answer rfl).trans
      ⟨fun h => ⟨trivial, fun j hj => ?_⟩, fun h => h.2 _ .callRemove⟩
    cases hj with
    | store hs => cases hs
    | callRemove => exact h
  | enableGroup g =>
    refine (returns_answer rfl).trans ((isSome_after (.note _)).trans ?_)
    refine ⟨fun h => ⟨trivial, fun j hj => ?_⟩, fun h _ m' hrun => h.2 _ (.enableGroup hrun)⟩
    cases hj with
    | store hs => cases hs
    | enableGroup hrun => exact h _ _ hrun
  | disableGroup g =>
    refine (returns_answer rfl).trans ((isSome_after (.note _)).trans ?_)
    refine ⟨fun h => ⟨trivial, fun j hj => ?_⟩, fun h _ m' hrun => h.2 _ (.disableGroup hrun)⟩
    cases hj with
    | store hs => cases hs
    | disableGroup hrun => exact h _ _ hrun
  | plan seeds =>
    refine (returns_answer rfl).trans ⟨fun h => ⟨h, fun j hj => ?_⟩, And.left⟩
    cases hj with
    | store hs => cases hs
  | recompute seed =>
    refine (returns_answer rfl).trans ((isSome_before total_executePlan).trans ?_)
    refine ⟨fun h => ⟨h, fun j hj => ?_⟩, And.left⟩
    cases hj with
    | store hs => cases hs
  | query q =>
    refine iff_of_true ((isSome_before fun _ => .pure _).2 (Total.query q.answer).isSome)
      ⟨trivial, fun j hj => ?_⟩
    cases hj with
    | store hs => cases hs
  -- the remaining calls neither walk nor make anything
  | newVariable value =>
    exact total_accounted rfl (total_storeVariable _) trivial (by rintro _ ⟨⟨⟩⟩)
  | newUnassigned =>
    exact total_accounted rfl (total_storeVariable _) trivial (by rintro _ ⟨⟨⟩⟩)
  | newVariables values =>
    exact total_accounted rfl (total_newVariables values) trivial (by rintro _ ⟨⟨⟩⟩)
  | named name =>
    exact total_accounted rfl (total_named name) trivial (by rintro _ ⟨⟨⟩⟩)
  | removeVariable v =>
    exact total_accounted rfl (total_removeVariable v) trivial (by rintro _ ⟨⟨⟩⟩)
  | insert d =>
    exact total_accounted rfl (total_insert d) trivial (by rintro _ ⟨⟨⟩⟩)
  | substitute c f =>
    exact total_accounted rfl (total_substitute c f) trivial (by rintro _ ⟨⟨⟩⟩)
  | executePlan p =>
    exact total_accounted rfl (total_executePlan p) trivial (by rintro _ ⟨⟨⟩⟩)
  | buildGroup script =>
    exact total_accounted rfl (total_buildGroup script) trivial (by rintro _ ⟨⟨⟩⟩)
  | resetMetrics =>
    exact total_accounted rfl (.count _) trivial (by rintro _ ⟨⟨⟩⟩)

end SolveM

/-- An invocation returns if and only if its own walk comes to its end and every invocation that it
makes returns. -/
theorem Invocation.returns_iff_made {W T : Type} (i : Invocation W T) :
    i.Returns ↔ i.Walks ∧ ∀ j, SolveM.Makes i j → j.Returns := by
  obtain ⟨fuel, operation, m⟩ := i
  cases operation with
  | call call => exact SolveM.call_accounted call
  | pulse v c => exact SolveM.pulse_accounted v c
  | enableOrRemove c => exact SolveM.enableOrRemove_accounted c
  | removeConstraint c => exact SolveM.removeConstraint_accounted c
  | enableMembers cs done => exact SolveM.enableMembers_accounted cs done
  | undoMembers cs => exact SolveM.undoMembers_accounted cs
  | disableMembers cs failure => exact SolveM.disableMembers_accounted cs failure
  | enable c => exact SolveM.enable_accounted c
  | settle c => exact SolveM.settle_accounted c
  | rollBackEnable c failed => exact SolveM.rollBackEnable_accounted c failed
  | restore c failed => exact SolveM.restore_accounted c failed
  | disable c => exact SolveM.disable_accounted c
  | add c => exact SolveM.add_accounted c
  | displace mark steps c => exact SolveM.displace_accounted mark steps c
  | enforce mark c => exact SolveM.enforce_accounted mark c
  | remove c => exact SolveM.remove_accounted c
  | vacate output => exact SolveM.vacate_accounted output
  | readd cs failure => exact SolveM.readd_accounted cs failure

namespace Operation

variable {W T : Type}

/-- An operation is invoked only by operations of higher rank, by itself with less to do, or at more
fuel. -/
def rank : Operation W T → Nat
  | .call _ => 12
  | .enableOrRemove _ | .enableMembers _ _ => 11
  | .pulse _ _ | .removeConstraint _ | .undoMembers _ | .disableMembers _ _ => 10
  | .enable _ | .disable _ => 9
  | .settle _ => 8
  | .rollBackEnable _ _ => 7
  | .restore _ _ => 6
  | .displace _ _ _ => 5
  | .enforce _ _ => 4
  | .remove _ => 3
  | .vacate _ | .readd _ _ => 2
  | .add _ => 1

/-- The number of rounds that an operation which repeats itself has before it. -/
def rounds : Operation W T → Nat
  | .enableMembers cs _ | .undoMembers cs | .disableMembers cs _ | .readd cs _ => cs.length
  | .displace _ steps _ => steps
  | _ => 0

end Operation

namespace Invocation

open Relation

variable {W T : Type}

/-- How far invocations can be nested. -/
def depth (i : Invocation W T) : ℕ ×ₗ ℕ ×ₗ ℕ :=
  toLex (i.fuel, toLex (i.operation.rank, i.operation.rounds))

/-- What is made has less fuel, or lower rank, or fewer rounds. -/
theorem depth_lt {i j : Invocation W T} (h : SolveM.Makes i j) : j.depth < i.depth := by
  cases h <;> simp [depth, Operation.rank, Operation.rounds, Prod.Lex.toLex_lt_toLex]

/-- Invocations are not nested without end. -/
theorem wellFounded_makes : WellFounded fun j i : Invocation W T => SolveM.Makes i j :=
  Subrelation.wf depth_lt (InvImage.wf depth wellFounded_lt)

/-- An invocation returns if and only if every walk in its course comes to its end. -/
theorem returns_iff_walks (i : Invocation W T) :
    i.Returns ↔ ∀ j, ReflTransGen SolveM.Makes i j → j.Walks := by
  -- by induction on the depth to which invocations are nested
  induction i using wellFounded_makes.induction with
  | h i ih =>
    rw [returns_iff_made]
    constructor
    · rintro ⟨hwalks, hmade⟩ j hj
      obtain rfl | ⟨k, hk, hkj⟩ := hj.cases_head
      · exact hwalks
      · exact (ih k hk).1 (hmade k hk) j hkj
    · intro h
      exact ⟨h i .refl, fun j hj => (ih j hj).2 fun k hk => h k (.head hj hk)⟩

end Invocation

end DeltaBlue
