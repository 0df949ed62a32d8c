import Mathlib.Order.WellFoundedSet
import DeltaBlue.Proofs.Frame

/-!
# Operations that return or go round

The walks of an operation may take as many steps as it has fuel, and the calls that adding and
removing make of each other may be as many deep. With all the fuel in the world an operation may
come to its end, or it may not. `Resolves op m Q` says that there is only one way not to: either
from some amount of fuel on the operation returns, always with the same result, and this satisfies
`Q`; or from some amount of fuel on it is stopped in one and the same graph, in which methods in
force form a cycle, and nothing but cells, walk strengths and constancies changes any more
(`Circles`). The rules reduce the statement for an operation to statements for its parts.

Operations that use no fuel are `Total`: they return on every machine.
-/

namespace DeltaBlue

namespace Solver

open Relation

variable {W T : Type}

/-- A walk goes on from `v` to `w`: among the constraints that read `v` there is one whose method in
force determines `w`. -/
def Next (s : Solver W T) (v w : VarId) : Prop :=
  ∃ x k node, s.variableAt? v = some x ∧ k ∈ s.consumers x ∧ s.constraintAt? k = some node ∧
    node.output? = some w

/-- A walk can come back to where it was. -/
def Cyclic (s : Solver W T) : Prop := ∃ v, TransGen s.Next v v

variable {s s' : Solver W T}

/-- Which constraints consume a variable is a matter of the shape of the graph. -/
theorem Repaints.consumers_eq (h : s.Repaints s') {v : VarId} {x' : Variable T}
    (hx' : s'.variableAt? v = some x') :
    ∃ x, s.variableAt? v = some x ∧ s'.consumers x' = s.consumers x := by
  obtain ⟨x, hx, hincident, hdetermined, _⟩ := h.variable_of hx'
  refine ⟨x, hx, ?_⟩
  unfold consumers isEnforcing
  rw [hincident, hdetermined]
  simp only [h.constraintAt]

/-- A relation without cycles that leads only to members of a finite set is well-founded. -/
theorem wellFounded_of_not_transGen {α : Type} {r : α → α → Prop} {S : Set α} (hS : S.Finite)
    (hmem : ∀ {a b}, r a b → b ∈ S) (hcycle : ∀ a, ¬ TransGen r a a) : WellFounded r := by
  have hstrict : IsStrictOrder α (TransGen r) :=
    { irrefl := hcycle
      trans := fun _ _ _ hab hbc => hab.trans hbc }
  -- nothing leads to what lies outside the set
  have houtside : ∀ b, b ∉ S → Acc r b :=
    fun b hb => .intro b fun a hab => absurd (hmem hab) hb
  refine ⟨fun b => ?_⟩
  by_cases hb : b ∈ S
  · -- on the finite set the relation is a strict order
    refine (hS.wellFoundedOn (r := TransGen r)).induction hb ?_
    intro b _ ih
    refine .intro b fun a hab => ?_
    by_cases ha : a ∈ S
    · exact ih a ha (.single hab)
    · exact houtside a ha
  · exact houtside b hb

/-- There are finitely many variables. -/
theorem finite_variables (s : Solver W T) : {v | (s.variableAt? v).isSome}.Finite := by
  refine s.vars.keys.finite_toSet.subset fun v hv => ?_
  obtain ⟨x, hx⟩ := Option.isSome_iff_exists.1 hv
  exact List.mem_map.2 ⟨(v, x), Arena.mem_toList.2 hx, rfl⟩

/-- There are finitely many constraints. -/
theorem finite_constraints (s : Solver W T) : {c | (s.constraintAt? c).isSome}.Finite := by
  refine s.constraints.keys.finite_toSet.subset fun c hc => ?_
  obtain ⟨x, hx⟩ := Option.isSome_iff_exists.1 hc
  exact List.mem_map.2 ⟨(c, x), Arena.mem_toList.2 hx, rfl⟩

/-- A walk goes on from variables that exist. -/
theorem Next.live {v w : VarId} (h : s.Next v w) : (s.variableAt? v).isSome := by
  obtain ⟨x, _, _, hx, _⟩ := h
  rw [hx]
  rfl

/-- Without a cycle every walk ends. -/
theorem wellFounded_next (h : ¬ s.Cyclic) : WellFounded fun w v => s.Next v w :=
  -- there are finitely many variables to go on to
  wellFounded_of_not_transGen s.finite_variables (fun hn => hn.live)
    fun v hv => h ⟨v, transGen_swap.1 hv⟩

end Solver

namespace SolveM

variable {W T α β : Type}

/-! ## Operations without fuel -/

/-- The operation returns on every machine. -/
def Total (op : SolveM W T α) : Prop := ∀ m, ∃ r, exec op m = some r

namespace Total

/-- A value is returned at once. -/
theorem pure (a : α) : Total (pure a : SolveM W T α) := fun m => ⟨_, exec_pure a m⟩

/-- A failure is returned at once. -/
theorem throw (e : SolveError) : Total (throw e : SolveM W T α) := fun m => ⟨_, exec_throw e m⟩

/-- A look-up that may fail returns at once. -/
theorem query (f : Solver W T → Except SolveError α) : Total (query f) :=
  fun m => ⟨_, exec_query f m⟩

/-- A look-up returns at once. -/
theorem ask (f : Solver W T → α) : Total (ask f) := fun m => ⟨_, exec_ask f m⟩

/-- A notice is written at once. -/
theorem note (n : Notice T) : Total (W := W) (note n) := fun m => ⟨_, exec_note n m⟩

/-- A change of the solver is made at once. -/
theorem update (f : Solver W T → Solver W T) : Total (update f) := fun m => ⟨_, exec_update f m⟩

/-- Counting is done at once. -/
theorem count (f : Metrics → Metrics) : Total (W := W) (T := T) (count f) := update _

/-- A variable is found or missed at once. -/
theorem getVariable (v : VarId) : Total (W := W) (T := T) (getVariable v) := query _

/-- A constraint is found or missed at once. -/
theorem getConstraint (c : ConstraintId) : Total (W := W) (T := T) (getConstraint c) := query _

/-- Two operations without fuel, one after the other. -/
theorem bind {op : SolveM W T α} {f : α → SolveM W T β} (hop : Total op) (hf : ∀ a, Total (f a)) :
    Total (op >>= f) := by
  intro m
  obtain ⟨⟨r, m'⟩, hr⟩ := hop m
  rw [exec_bind, hr]
  cases r with
  | ok a => exact hf a m'
  | error e => exact ⟨_, rfl⟩

/-- An attempt needs no fuel of its own. -/
theorem attempt {op : SolveM W T α} (hop : Total op) : Total (attempt op) := by
  intro m
  obtain ⟨r, hr⟩ := hop m
  exact ⟨_, by rw [exec_attempt, hr]; rfl⟩

/-- A variable is changed or missed at once. -/
theorem changeVariable (v : VarId) (f : Variable T → Variable T) :
    Total (W := W) (changeVariable v f) :=
  (getVariable v).bind fun _ => update _

/-- A constraint is changed or missed at once. -/
theorem changeConstraint (c : ConstraintId) (f : Constraint W T → Constraint W T) :
    Total (changeConstraint c f) :=
  (getConstraint c).bind fun _ => update _

/-- A loop without fuel makes as many rounds as the list is long. -/
theorem forM {l : List β} {f : β → SolveM W T PUnit} (hf : ∀ b, Total (f b)) :
    Total (l.forM f) := by
  induction l with
  | nil => exact pure _
  | cons b l ih => exact (hf b).bind fun _ => ih

/-- A method answers: it is a function. -/
theorem runOn (x : Method W T) (values : Except FormulaError (List T)) : Total (runOn x values) := by
  intro m
  cases values with
  | error cause => exact ⟨_, exec_pure _ m⟩
  | ok values => exact ⟨_, rfl⟩

end Total

/-- Executing a method needs no fuel. -/
theorem total_execute (c : ConstraintId) (i : Nat) : Total (W := W) (T := T) (execute c i) := by
  unfold execute
  refine (Total.getConstraint c).bind fun node => ?_
  cases node.definition.method? i with
  | none => exact .pure _
  | some x =>
    refine (Total.query _).bind fun inputs => (Total.runOn x inputs).bind fun outcome => ?_
    refine (Total.count _).bind fun _ => (Total.getVariable _).bind fun _ => ?_
    cases outcome with
    | assign value => exact (Total.changeVariable _ _).bind fun _ => .note _
    | keep => exact .note _
    | fail cause =>
      refine (Total.note _).bind fun _ => (Total.count _).bind fun _ => ?_
      exact (Total.changeVariable _ _).bind fun _ => .note _

/-- Recalculating a constraint needs no fuel. -/
theorem total_recalculate (c : ConstraintId) : Total (W := W) (T := T) (recalculate c) := by
  unfold recalculate
  refine (Total.getConstraint c).bind fun node => ?_
  split
  · refine (Total.query _).bind fun _ => (Total.query _).bind fun constant => ?_
    refine (Total.changeVariable _ _).bind fun _ => ?_
    split
    · exact total_execute c _
    · exact .pure _
  · exact .pure _

/-- Bringing a list of constraints up to date needs no fuel: the list gets shorter. -/
theorem total_refresh (cs : List ConstraintId) (todo : OrderedSet VarId) :
    Total (W := W) (T := T) (refresh cs todo) := by
  induction cs generalizing todo with
  | nil => exact .pure _
  | cons c cs ih =>
    unfold refresh
    refine (total_recalculate c).bind fun _ => (Total.getConstraint c).bind fun node => ?_
    split
    · exact ih _
    · exact ih _

/-- Entering a constraint at its variables needs no fuel. -/
theorem total_register (c : ConstraintId) : Total (W := W) (T := T) (register c) :=
  (Total.getConstraint c).bind fun _ => .forM fun _ => .changeVariable _ _

/-- Taking a constraint off its variables needs no fuel. -/
theorem total_deregister (c : ConstraintId) : Total (W := W) (T := T) (deregister c) :=
  (Total.getConstraint c).bind fun _ => .forM fun _ => .update _

/-- Seizing an output needs no fuel. -/
theorem total_seize (c : ConstraintId) (output : VarId) :
    Total (W := W) (T := T) (seize c output) := by
  unfold seize
  refine (Total.getVariable _).bind fun x => ?_
  cases x.determinedBy with
  | none =>
    refine (Total.changeVariable _ _).bind fun _ => (Total.count _).bind fun _ => ?_
    exact (Total.note _).bind fun _ => .pure _
  | some other =>
    refine (Total.changeConstraint _ _).bind fun _ => (Total.count _).bind fun _ => ?_
    refine (Total.note _).bind fun _ => (Total.changeVariable _ _).bind fun _ => ?_
    exact (Total.count _).bind fun _ => (Total.note _).bind fun _ => .pure _

/-- Installing a method needs no fuel. The calls of others begin with the sweep and with what is
displaced. -/
theorem total_install (mark : Mark) (c : ConstraintId) :
    Total (W := W) (T := T) (install mark c) := by
  unfold install
  refine (Total.getConstraint c).bind fun node => (Total.query _).bind fun chosen => ?_
  refine (Total.changeConstraint _ _).bind fun _ => ?_
  split
  · split
    · refine (Total.count _).bind fun _ => (Total.throw _).bind fun _ => ?_
      exact (Total.note _).bind fun _ => .pure _
    · exact (Total.note _).bind fun _ => .pure _
  · refine (Total.forM fun _ => .changeVariable _ _).bind fun _ => ?_
    exact (total_seize c _).bind fun _ => .pure _

/-! ## Where an operation is stopped -/

variable {m : Machine W T}

/-- What is stopped does not return. -/
theorem exec_eq_none_of_stop? {op : SolveM W T α} {m' : Machine W T} (h : stop? op m = some m') :
    exec op m = none := by
  unfold stop? at h
  unfold exec
  split at h
  · cases h
  · next heq => rw [heq]; rfl

/-- What follows an operation is stopped where it is stopped, or where the rest is. -/
theorem stop?_bind (op : SolveM W T α) (f : α → SolveM W T β) (m : Machine W T) :
    stop? (op >>= f) m =
      match exec op m with
      | none => stop? op m
      | some (.ok a, m') => stop? (f a) m'
      | some (.error _, _) => none := by
  simp only [stop?, exec, ExceptT.run_bind, StateT.run_bind]
  cases h : StateT.run (ExceptT.run op) m with
  | error m' => rfl
  | ok p =>
    obtain ⟨r, m'⟩ := p
    cases r <;> rfl

/-- An attempt is stopped where the operation is stopped. -/
theorem stop?_attempt (op : SolveM W T α) (m : Machine W T) : stop? (attempt op) m = stop? op m := by
  simp only [stop?, attempt, ExceptT.run_mk, StateT.run_bind]
  cases h : StateT.run (ExceptT.run op) m with
  | error m' => rfl
  | ok p => rfl

/-! ## Returning or going round -/

/-- From some amount of fuel on the operation is stopped in one graph, which has a cycle. -/
def Circles (op : Nat → SolveM W T α) (m : Machine W T) : Prop :=
  ∃ s : Solver W T, s.Cyclic ∧ ∃ bound, ∀ fuel, bound ≤ fuel →
    ∃ m', stop? (op fuel) m = some m' ∧ s.Repaints m'.solver

/-- From some amount of fuel on the operation returns, always the same. -/
def Returns (op : Nat → SolveM W T α) (m : Machine W T)
    (Q : Except SolveError α → Machine W T → Prop) : Prop :=
  ∃ r m', Q r m' ∧ ∃ bound, ∀ fuel, bound ≤ fuel → exec (op fuel) m = some (r, m')

/-- The operation returns with a result that satisfies `Q`, or goes round in a cycle. -/
def Resolves (op : Nat → SolveM W T α) (m : Machine W T)
    (Q : Except SolveError α → Machine W T → Prop) : Prop :=
  Returns op m Q ∨ Circles op m

/-- An operation that goes round does not return. -/
theorem Circles.not_returns {op : Nat → SolveM W T α}
    {Q : Except SolveError α → Machine W T → Prop} (h : Circles op m) : ¬ Returns op m Q := by
  rintro ⟨r, m', _, bound, hreturns⟩
  obtain ⟨_, _, bound', hstops⟩ := h
  obtain ⟨_, hstop, _⟩ := hstops (max bound bound') (Nat.le_max_right _ _)
  -- with enough fuel for both the operation would return and be stopped
  have hexec := hreturns (max bound bound') (Nat.le_max_left _ _)
  rw [exec_eq_none_of_stop? hstop] at hexec
  cases hexec

/-- A bound that counts from one. -/
theorem exists_succ_of_lt {bound fuel : Nat} (h : bound < fuel) :
    ∃ k, bound ≤ k ∧ fuel = k + 1 :=
  ⟨fuel - 1, Nat.le_sub_one_of_lt h, (Nat.sub_add_cancel (Nat.one_le_of_lt h)).symm⟩

namespace Returns

variable {op : Nat → SolveM W T α} {P Q : Except SolveError α → Machine W T → Prop}

/-- An operation without fuel returns, and what it ensures holds. -/
theorem of_total {op : SolveM W T α} (h : Total op) (hQ : Ensures op m Q) :
    Returns (fun _ => op) m Q := by
  obtain ⟨⟨r, m'⟩, hr⟩ := h m
  exact ⟨r, m', hQ r m' hr, 0, fun _ _ => hr⟩

/-- What an operation needs of its fuel may be counted from one. -/
theorem succ (h : Returns (fun fuel => op (fuel + 1)) m Q) : Returns op m Q := by
  obtain ⟨r, m', hQ, bound, hreturns⟩ := h
  refine ⟨r, m', hQ, bound + 1, fun fuel hle => ?_⟩
  obtain ⟨k, hk, rfl⟩ := exists_succ_of_lt hle
  exact hreturns k hk

/-- What follows from the result of an operation that returns. -/
theorem mono (h : Returns op m P) (hPQ : ∀ r m', P r m' → Q r m') : Returns op m Q := by
  obtain ⟨r, m', hP, hreturns⟩ := h
  exact ⟨r, m', hPQ r m' hP, hreturns⟩

/-- What an operation ensures when it returns may be added. -/
theorem and_ensures (h : Returns op m P) (hQ : ∀ fuel, Ensures (op fuel) m Q) :
    Returns op m fun r m' => P r m' ∧ Q r m' := by
  obtain ⟨r, m', hP, bound, hreturns⟩ := h
  exact ⟨r, m', ⟨hP, hQ bound r m' (hreturns bound (Nat.le_refl _))⟩, bound, hreturns⟩

/-- One operation after the other. The failure of the first is the failure of both. -/
theorem bind {f : Nat → α → SolveM W T β} {Q : Except SolveError β → Machine W T → Prop}
    (h : Returns op m P) (herror : ∀ e m', P (.error e) m' → Q (.error e) m')
    (hok : ∀ a m', P (.ok a) m' → Returns (fun fuel => f fuel a) m' Q) :
    Returns (fun fuel => op fuel >>= f fuel) m Q := by
  obtain ⟨r, m', hP, bound, hreturns⟩ := h
  cases r with
  | error e =>
    refine ⟨.error e, m', herror e m' hP, bound, fun fuel hle => ?_⟩
    rw [exec_bind, hreturns fuel hle]
  | ok a =>
    obtain ⟨r, m'', hQ, bound', hrest⟩ := hok a m' hP
    -- with as much fuel as either of the two needs both return
    refine ⟨r, m'', hQ, max bound bound', fun fuel hle => ?_⟩
    rw [exec_bind, hreturns fuel (Nat.le_trans (Nat.le_max_left _ _) hle)]
    exact hrest fuel (Nat.le_trans (Nat.le_max_right _ _) hle)

/-- An operation after one that uses no fuel. -/
theorem after {op : SolveM W T α} {f : Nat → α → SolveM W T β}
    {Q : Except SolveError β → Machine W T → Prop} (h : Total op)
    (hop : Ensures op m fun r m' =>
      match r with
      | .ok a => Returns (fun fuel => f fuel a) m' Q
      | .error e => Q (.error e) m') : Returns (fun fuel => op >>= f fuel) m Q :=
  (of_total h hop).bind (fun _ _ he => he) fun _ _ ha => ha

end Returns

namespace Resolves

variable {op : Nat → SolveM W T α} {P Q : Except SolveError α → Machine W T → Prop}

/-- What follows from the result is kept through the dichotomy. -/
theorem mono (h : Resolves op m P) (hPQ : ∀ r m', P r m' → Q r m') : Resolves op m Q := by
  rcases h with hreturns | hcircles
  · exact .inl (hreturns.mono hPQ)
  · exact .inr hcircles

/-- What an operation ensures when it returns may be added. -/
theorem and_ensures (h : Resolves op m P) (hQ : ∀ fuel, Ensures (op fuel) m Q) :
    Resolves op m fun r m' => P r m' ∧ Q r m' := by
  rcases h with hreturns | hcircles
  · exact .inl (hreturns.and_ensures hQ)
  · exact .inr hcircles

/-- An operation without fuel returns. -/
theorem of_total {op : SolveM W T α} (h : Total op) (hQ : Ensures op m Q) :
    Resolves (fun _ => op) m Q :=
  .inl (.of_total h hQ)

/-- A value is returned and does not go round. -/
theorem pure {a : α} (hQ : Q (.ok a) m) : Resolves (fun _ => Pure.pure a) m Q :=
  of_total (.pure a) ((ensures_pure a).2 hQ)

/-- A failure is returned and does not go round. -/
theorem throw {e : SolveError} (hQ : Q (.error e) m) :
    Resolves (fun _ => MonadExcept.throw e) m Q :=
  of_total (.throw e) ((ensures_throw e).2 hQ)

/-- What an operation needs of its fuel may be counted from one. -/
theorem succ (h : Resolves (fun fuel => op (fuel + 1)) m Q) : Resolves op m Q := by
  rcases h with hreturns | ⟨s, hs, bound, hstops⟩
  · exact .inl hreturns.succ
  · refine .inr ⟨s, hs, bound + 1, fun fuel hle => ?_⟩
    obtain ⟨k, hk, rfl⟩ := exists_succ_of_lt hle
    exact hstops k hk

/-- More fuel does no harm. -/
theorem comp {g : Nat → Nat} (h : Resolves op m Q) (hg : ∀ fuel, fuel ≤ g fuel) :
    Resolves (fun fuel => op (g fuel)) m Q := by
  rcases h with ⟨r, m', hQ, bound, hreturns⟩ | ⟨s, hs, bound, hstops⟩
  · exact .inl ⟨r, m', hQ, bound, fun fuel hle => hreturns _ (Nat.le_trans hle (hg fuel))⟩
  · exact .inr ⟨s, hs, bound, fun fuel hle => hstops _ (Nat.le_trans hle (hg fuel))⟩

/-- One operation after the other. The failure of the first is the failure of both. -/
theorem bind {f : Nat → α → SolveM W T β} {Q : Except SolveError β → Machine W T → Prop}
    (h : Resolves op m P) (herror : ∀ e m', P (.error e) m' → Q (.error e) m')
    (hok : ∀ a m', P (.ok a) m' → Resolves (fun fuel => f fuel a) m' Q) :
    Resolves (fun fuel => op fuel >>= f fuel) m Q := by
  rcases h with ⟨r, m', hP, bound, hreturns⟩ | ⟨s, hs, bound, hstops⟩
  · cases r with
    | error e =>
      refine .inl ⟨.error e, m', herror e m' hP, bound, fun fuel hle => ?_⟩
      rw [exec_bind, hreturns fuel hle]
    | ok a =>
      rcases hok a m' hP with ⟨r, m'', hQ, bound', hrest⟩ | ⟨s, hs, bound', hrest⟩
      · refine .inl ⟨r, m'', hQ, max bound bound', fun fuel hle => ?_⟩
        rw [exec_bind, hreturns fuel (Nat.le_trans (Nat.le_max_left _ _) hle)]
        exact hrest fuel (Nat.le_trans (Nat.le_max_right _ _) hle)
      · -- the second goes round, and both are stopped where it is
        refine .inr ⟨s, hs, max bound bound', fun fuel hle => ?_⟩
        obtain ⟨m'', hstop, hgraph⟩ := hrest fuel (Nat.le_trans (Nat.le_max_right _ _) hle)
        refine ⟨m'', ?_, hgraph⟩
        rw [stop?_bind, hreturns fuel (Nat.le_trans (Nat.le_max_left _ _) hle)]
        exact hstop
  · -- the first goes round, and the second never begins
    refine .inr ⟨s, hs, bound, fun fuel hle => ?_⟩
    obtain ⟨m', hstop, hgraph⟩ := hstops fuel hle
    refine ⟨m', ?_, hgraph⟩
    rw [stop?_bind, exec_eq_none_of_stop? hstop]
    exact hstop

/-- An operation after one that uses no fuel. -/
theorem after {op : SolveM W T α} {f : Nat → α → SolveM W T β}
    {Q : Except SolveError β → Machine W T → Prop} (h : Total op)
    (hop : Ensures op m fun r m' =>
      match r with
      | .ok a => Resolves (fun fuel => f fuel a) m' Q
      | .error e => Q (.error e) m') : Resolves (fun fuel => op >>= f fuel) m Q :=
  (of_total h hop).bind (fun _ _ he => he) fun _ _ ha => ha

/-- The failure of an attempt is a value. -/
theorem attempt (h : Resolves op m P) :
    Resolves (fun fuel => attempt (op fuel)) m fun r m' => ∃ a, r = .ok a ∧ P a m' := by
  rcases h with ⟨r, m', hP, bound, hreturns⟩ | ⟨s, hs, bound, hstops⟩
  · refine .inl ⟨.ok r, m', ⟨r, rfl, hP⟩, bound, fun fuel hle => ?_⟩
    rw [exec_attempt, hreturns fuel hle]
    rfl
  · refine .inr ⟨s, hs, bound, fun fuel hle => ?_⟩
    rw [stop?_attempt]
    exact hstops fuel hle

end Resolves

/-! ## Walks that are cut short -/

/-- With less fuel the operation returns the same, or it is stopped with nothing changed but cells,
walk strengths and constancies. -/
def CutShort (less more : SolveM W T α) : Prop :=
  ∀ m, (∃ r, exec less m = some r ∧ exec more m = some r) ∨
    ∃ m', stop? less m = some m' ∧ m.solver.Repaints m'.solver

namespace CutShort

/-- What is stopped at once has changed nothing. -/
theorem unfinished (more : SolveM W T α) : CutShort unfinished more :=
  fun m => .inr ⟨m, rfl, Solver.Repaints.transitive.refl _⟩

/-- An operation without fuel does the same with less. -/
theorem of_total {op : SolveM W T α} (h : Total op) : CutShort op op := by
  intro m
  obtain ⟨r, hr⟩ := h m
  exact .inl ⟨r, hr, hr⟩

/-- After an operation that repaints and needs no fuel, what is cut short is the rest. -/
theorem bind {op : SolveM W T α} {f f' : α → SolveM W T β} (h : Total op)
    (hop : Obeys Solver.Repaints op) (hf : ∀ a, CutShort (f a) (f' a)) :
    CutShort (op >>= f) (op >>= f') := by
  intro m
  obtain ⟨⟨r, m'⟩, hr⟩ := h m
  have hgraph := hop m r m' hr
  rw [exec_bind, exec_bind, stop?_bind, hr]
  cases r with
  | error e => exact .inl ⟨_, rfl, rfl⟩
  | ok a =>
    rcases hf a m' with ⟨r, hless, hmore⟩ | ⟨m'', hstop, hgraph'⟩
    · exact .inl ⟨r, hless, hmore⟩
    · exact .inr ⟨m'', hstop, Solver.Repaints.transitive.trans hgraph hgraph'⟩

end CutShort

/-- What was reached with some fuel is reached with more. -/
theorem exec_of_cutShort {op : Nat → SolveM W T α} {bound fuel : Nat}
    {r : Except SolveError α × Machine W T} (h : ∀ fuel, CutShort (op fuel) (op (fuel + 1)))
    (hr : exec (op bound) m = some r) (hle : bound ≤ fuel) : exec (op fuel) m = some r := by
  -- one more unit of fuel at a time
  induction fuel, hle using Nat.le_induction with
  | base => exact hr
  | succ fuel _ ih =>
    rcases h fuel m with ⟨r', hless, hmore⟩ | ⟨_, hstop, _⟩
    · rw [hmore, ← hless, ih]
    · -- it cannot be stopped where it has returned with less
      rw [exec_eq_none_of_stop? hstop] at ih
      cases ih

/-- A walk that only lacks fuel returns or goes round, if it returns where there is no cycle. -/
theorem Resolves.of_cutShort {op : Nat → SolveM W T α}
    {Q : Except SolveError α → Machine W T → Prop}
    (h : ∀ fuel, CutShort (op fuel) (op (fuel + 1))) (hQ : ∀ fuel, Ensures (op fuel) m Q)
    (hacyclic : ¬ m.solver.Cyclic → Resolves op m Q) : Resolves op m Q := by
  by_cases hcyclic : m.solver.Cyclic
  · -- in a graph with a cycle there may still be an amount of fuel with which it returns
    by_cases hreturns : ∃ fuel r, exec (op fuel) m = some r
    · obtain ⟨bound, ⟨r, m'⟩, hr⟩ := hreturns
      exact .inl ⟨r, m', hQ bound r m' hr, bound, fun fuel hle => exec_of_cutShort h hr hle⟩
    · refine .inr ⟨m.solver, hcyclic, 0, fun fuel _ => ?_⟩
      rcases h fuel m with ⟨r, hless, _⟩ | hstop
      · exact absurd ⟨fuel, r, hless⟩ hreturns
      · exact hstop
  · exact hacyclic hcyclic

end SolveM

end DeltaBlue
