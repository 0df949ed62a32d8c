import DeltaBlue.Plan
import DeltaBlue.Proofs.Deeds

/-!
# The two walks

`sweep` follows an installed method and `strandedFrom` a vacated variable. Both keep a worklist from
which every constraint that is not settled can be found: for `sweep` it is on the worklist, and for
`strandedFrom` it computes something from a variable downstream of the worklist. So when a walk comes
to its end, everything is settled, and since it has followed every path downstream of where it began,
all of these paths end. A sweep that stops at a claimed variable instead leaves only constraints
unsettled whose outputs are downstream of where it began.

To be settled is not the only thing that the walks bring about. What is shown here holds of every
condition that a recalculation renews (`Solver.Renewable`).
-/

namespace DeltaBlue

namespace OrderedSet

variable {α : Type} {s rest : OrderedSet α} {a b : α}

/-- A set of one member has this member. -/
theorem mem_singleton : b ∈ singleton a ↔ b = a := List.mem_singleton

/-- A set from which nothing can be taken is empty. -/
theorem not_mem_of_pop? (h : s.pop? = none) : b ∉ s := by
  obtain ⟨l, hl⟩ := s
  cases l with
  | nil => exact List.not_mem_nil
  | cons c l => cases h

/-- Taking a member leaves the others. -/
theorem mem_of_pop? (h : s.pop? = some (a, rest)) : b ∈ s ↔ b = a ∨ b ∈ rest := by
  obtain ⟨l, hl⟩ := s
  cases l with
  | nil => cases h
  | cons c l =>
    obtain ⟨rfl, rfl⟩ := Prod.mk.inj (Option.some.inj h)
    exact List.mem_cons

end OrderedSet

namespace Solver

variable {W T : Type} {s s' : Solver W T} {done : ConstraintId → Prop} {c k : ConstraintId}
  {o v w : VarId}

/-- A constraint determines one variable at most. -/
theorem Determines.unique (h : s.Determines c v) (h' : s.Determines c w) : v = w := by
  obtain ⟨node, hnode, hv⟩ := h
  obtain ⟨node', hnode', hw⟩ := h'
  obtain rfl := Option.some.inj (hnode.symm.trans hnode')
  exact Option.some.inj (hv.symm.trans hw)

/-- Ranking constraints by strength leaves out only those that do not exist. -/
theorem mem_rank {cs : List ConstraintId} :
    c ∈ s.rank cs ↔ c ∈ cs ∧ (s.constraintAt? c).isSome := by
  -- every strength has its turn
  have hall : ∀ a : Strength, a ∈ Strength.all.reverse := fun a => by cases a <;> decide
  unfold rank
  simp only [List.mem_flatMap, List.mem_filter, Option.any_eq_true, decide_eq_true_eq]
  constructor
  · rintro ⟨_, _, hmem, node, hnode, _⟩
    exact ⟨hmem, by rw [hnode]; rfl⟩
  · rintro ⟨hmem, hsome⟩
    obtain ⟨node, hnode⟩ := Option.isSome_iff_exists.1 hsome
    exact ⟨node.definition.strength, hall _, hmem, node, hnode, rfl⟩

/-- A condition on the constraints of a solver that a recalculation of the constraint brings about, and
that is a matter of the method in force, of the variables and of the latest deed that concerns the
constraint. -/
structure Renewable (fine : Solver W T → Ledger T → ConstraintId → Prop) : Prop where
  /-- A constraint without a method in force meets the condition. -/
  of_idle : ∀ {s : Solver W T} {l : Ledger T} {k : ConstraintId}, (∀ v, ¬ s.Determines k v) →
    fine s l k
  /-- Nothing that matters is changed. -/
  of_same : ∀ {s s' : Solver W T} {l l' : Ledger T} {k : ConstraintId}, fine s l k →
    (∀ node', s'.constraintAt? k = some node' → ∃ node, s.constraintAt? k = some node ∧
      node'.definition = node.definition ∧ node'.enforcing = node.enforcing) →
    (∀ node, s.constraintAt? k = some node → ∀ v ∈ node.definition.vars, SamePaint s s' v) →
    l' k = l k → fine s' l' k
  /-- The constraint is recalculated. -/
  of_recalculate : ∀ {m : Machine W T} {c : ConstraintId} {node : Constraint W T}, m.solver.Grounded →
    m.solver.constraintAt? c = some node →
    SolveM.Ensures (SolveM.recalculate c) m fun _ m' => fine m'.solver m'.ledger c

/-- To be settled is such a condition, for whichever constraints the cell is asked about. -/
theorem settled_renewable (cells : ConstraintId → Prop) :
    Renewable fun (s : Solver W T) _ k => s.Settled (cells k) k where
  of_idle := settled_of_not_determines
  of_same h hc hv _ := h.of_samePaint hc hv
  of_recalculate h hnode := (SolveM.ensures_recalculate (cells _) h hnode).mono fun _ _ hr => hr.2.2.1

section Renewable

variable {fine : Solver W T → Ledger T → ConstraintId → Prop} (hfine : Renewable fine) {l l' : Ledger T}
include hfine

/-- A constraint that does not meet the condition has a method in force. -/
theorem Renewable.determines_of_not (h : ¬ fine s l k) : ∃ o, s.Determines k o := by
  by_contra hnone
  exact h (hfine.of_idle fun v hv => hnone ⟨v, hv⟩)

/-- A recalculation of `c` takes the condition only from constraints that compute something from its
output. -/
theorem Renewable.or_reads (h : s.WellFormed) (hr : s.Repaints s')
    (hsame : ∀ v, ¬ s.Determines c v → s'.variableAt? v = s.variableAt? v)
    (hl : ∀ k, k ≠ c → l' k = l k) (hc : fine s' l' c) (hk : fine s l k) :
    fine s' l' k ∨ ∃ o w, s.Determines c o ∧ s.Reads k o w := by
  by_contra hnot
  rw [not_or] at hnot
  obtain ⟨hstale, hreads⟩ := hnot
  have hne : k ≠ c := by
    rintro rfl
    exact hstale hc
  obtain ⟨w, hw⟩ := hfine.determines_of_not hstale
  rw [hr.determines] at hw
  -- `k` keeps the condition: its method and its variables are the same, since none of them was
  -- recalculated
  refine hstale (hfine.of_same hk ?_ ?_ (hl k hne))
  · intro node hnode
    exact ⟨node, by rw [← hr.constraintAt, hnode], rfl, rfl⟩
  · intro node hnode v hv
    refine samePaint_of_eq (hsame v fun hdet => hreads ⟨v, w, hdet, ?_⟩)
    obtain ⟨node', hnode', hout⟩ := hw
    obtain rfl := Option.some.inj (hnode.symm.trans hnode')
    refine ⟨node, hnode, hout, hv, ?_⟩
    rintro rfl
    exact hne (h.determines_unique ⟨node, hnode, hout⟩ hdet)

end Renewable

/-- The constraint computes something from a variable downstream of `P`. -/
def Under (s : Solver W T) (P : VarId → Prop) (k : ConstraintId) : Prop :=
  ∃ v, P v ∧ ∃ u w, s.Reaches v u ∧ s.Reads k u w

/-- Repainting does not change what is downstream of what. -/
theorem Repaints.under {P : VarId → Prop} (hr : s.Repaints s') : s'.Under P k ↔ s.Under P k := by
  unfold Under
  rw [hr.reaches]
  simp only [reads_congr hr.constraintAt]

/-- What is downstream of a worklist computes something from the variable that is taken, or is downstream
of the rest and of what that variable feeds. -/
theorem Under.of_taken {todo rest : OrderedSet VarId} (hmem : ∀ {u}, u ∈ todo ↔ u = v ∨ u ∈ rest)
    (hk : s.Under (· ∈ todo) k) :
    (∃ w, s.Reads k v w) ∨ s.Under (fun u => u ∈ rest ∨ s.Feeds v u) k := by
  obtain ⟨u₀, hu₀, u, w, hreach, hreads⟩ := hk
  rcases hmem.1 hu₀ with rfl | hu₀
  · -- the way from the variable taken ends there or leads over one that it feeds
    rcases Relation.ReflTransGen.cases_head hreach with rfl | ⟨u₁, hf, hreach⟩
    · exact .inl ⟨w, hreads⟩
    · exact .inr ⟨u₁, .inr hf, u, w, hreach, hreads⟩
  · exact .inr ⟨u₀, .inl hu₀, u, w, hreach, hreads⟩

/-- A variable feeds the outputs of its consumers. -/
theorem WellFormed.feeds_iff (h : s.WellFormed) {x : Variable T} (hx : s.variableAt? v = some x) :
    s.Feeds v w ↔ ∃ k ∈ s.consumers x, s.Determines k w := by
  constructor
  · rintro ⟨k, hk⟩
    exact ⟨k, (h.mem_consumers hx).2 ⟨w, hk⟩, hk.determines⟩
  · rintro ⟨k, hk, hw⟩
    obtain ⟨u, hreads⟩ := (h.mem_consumers hx).1 hk
    obtain rfl := hw.unique hreads.determines
    exact ⟨k, hreads⟩

/-! ## Following an installed method -/

/-- The variable is downstream of an output of the worklist. -/
def Below (s : Solver W T) (todo : OrderedSet ConstraintId) (v : VarId) : Prop :=
  ∃ k ∈ todo, ∃ o, s.Determines k o ∧ s.Reaches o v

/-- What a sweep over a worklist comes to: either all constraints are `done` and all paths downstream
end, or a constraint with a claimed output was found, and what is not done is downstream. -/
def Swept (done : ConstraintId → Prop) (mark : Mark) (s : Solver W T)
    (todo : OrderedSet ConstraintId) : Except SolveError (Option (ConstraintId × VarId)) → Prop
  | .ok none => (∀ k, done k) ∧ ∀ k ∈ todo, ∀ o, s.Determines k o → s.Ends o
  | .ok (some (closing, a)) =>
    s.Determines closing a ∧ (∃ x, s.variableAt? a = some x ∧ x.mark = mark) ∧
      s.Below todo a ∧ ∀ k, ¬ done k → ∃ o, s.Determines k o ∧ s.Below todo o
  | .error _ => False

/-- The graph that a walk follows is that of any moment of the walk. -/
theorem Swept.of_repaints {s₁ : Solver W T} {mark : Mark} {todo : OrderedSet ConstraintId}
    {r : Except SolveError (Option (ConstraintId × VarId))} (hr : s.Repaints s₁)
    (h : Swept done mark s₁ todo r) : Swept done mark s todo r := by
  -- one case for each way in which a sweep comes to its end; it never fails
  match r, h with
  | .ok none, ⟨hall, hends⟩ =>
    exact ⟨hall, fun k hk o ho => hr.ends.1 (hends k hk o (hr.determines.2 ho))⟩
  | .ok (some (closing, a)), ⟨hdet, ⟨x, hx, hmark⟩, hbelow, hrest⟩ =>
    have hb : ∀ {v}, s₁.Below todo v → s.Below todo v := by
      rintro v ⟨k, hk, o, ho, hreach⟩
      exact ⟨k, hk, o, hr.determines.1 ho, hr.reaches ▸ hreach⟩
    obtain ⟨y, hy, _, _, hym⟩ := hr.variable_of hx
    refine ⟨hr.determines.1 hdet, ⟨y, hy, hym ▸ hmark⟩, hb hbelow, fun k hk => ?_⟩
    obtain ⟨o, ho, hbo⟩ := hrest k hk
    exact ⟨o, hr.determines.1 ho, hb hbo⟩

/-- What a sweep over one worklist comes to is what the sweep over another comes to, if the second
leads to everything that the first leads to. -/
theorem Swept.of_below {mark : Mark} {todo todo' : OrderedSet ConstraintId}
    {r : Except SolveError (Option (ConstraintId × VarId))}
    (h : Swept done mark s todo' r) (hbelow : ∀ v, s.Below todo' v → s.Below todo v)
    (hends : (∀ k ∈ todo', ∀ o, s.Determines k o → s.Ends o) →
      ∀ k ∈ todo, ∀ o, s.Determines k o → s.Ends o) : Swept done mark s todo r := by
  match r, h with
  | .ok none, ⟨hall, h⟩ => exact ⟨hall, hends h⟩
  | .ok (some (closing, a)), ⟨hdet, hmark, h, hrest⟩ =>
    refine ⟨hdet, hmark, hbelow a h, fun k hk => ?_⟩
    obtain ⟨o, ho, hbo⟩ := hrest k hk
    exact ⟨o, ho, hbelow o hbo⟩

/-- A sweep is not concerned with a constraint that has no method in force. -/
theorem Swept.of_rest {mark : Mark} {todo rest : OrderedSet ConstraintId}
    {r : Except SolveError (Option (ConstraintId × VarId))}
    (hmem : ∀ {k}, k ∈ todo ↔ k = c ∨ k ∈ rest) (hno : ∀ o, ¬ s.Determines c o)
    (h : Swept done mark s rest r) : Swept done mark s todo r := by
  refine h.of_below ?_ ?_
  · rintro v ⟨k, hk, hv⟩
    exact ⟨k, hmem.2 (.inr hk), hv⟩
  · intro hends k hk o ho
    rcases hmem.1 hk with rfl | hk
    · exact absurd ho (hno o)
    · exact hends k hk o ho

/-- A sweep goes on from a constraint to those that read its output. -/
theorem Swept.of_consumers {mark : Mark} {todo rest todo' : OrderedSet ConstraintId} {o : VarId}
    {r : Except SolveError (Option (ConstraintId × VarId))}
    (hmem : ∀ {k}, k ∈ todo ↔ k = c ∨ k ∈ rest) (hdet : s.Determines c o)
    (hmem' : ∀ {k}, k ∈ todo' ↔ k ∈ rest ∨ ∃ w, s.Reads k o w)
    (h : Swept done mark s todo' r) : Swept done mark s todo r := by
  refine h.of_below ?_ ?_
  · rintro v ⟨k, hk, w, hw, hreach⟩
    rcases hmem'.1 hk with hk | ⟨w', hreads⟩
    · exact ⟨k, hmem.2 (.inr hk), w, hw, hreach⟩
    · obtain rfl := hw.unique hreads.determines
      exact ⟨c, hmem.2 (.inl rfl), o, hdet, .head hreads.feeds hreach⟩
  · intro hends k hk o' ho'
    rcases hmem.1 hk with rfl | hk
    · -- every edge from the output leads to the output of a constraint that reads it
      obtain rfl := hdet.unique ho'
      refine .intro o fun w hf => ?_
      obtain ⟨j, hj⟩ := hf
      exact hends j (hmem'.2 (.inr ⟨w, hj⟩)) w hj.determines
    · exact hends k (hmem'.2 (.inl hk)) o' ho'

/-! ## Finding what is stranded -/

/-- The idle constraints that mention a variable downstream of the worklist are among those found. -/
def Finds (s : Solver W T) (todo : OrderedSet VarId) (found : OrderedSet ConstraintId) : Prop :=
  ∀ v ∈ todo, ∀ u, s.Reaches v u → ∀ k, s.Idle k → s.Mentions k u → k ∈ found

/-- A walk that finds the idle constraints at a variable and those downstream of what the variable
feeds finds all those downstream of the variable. -/
theorem Finds.of_next {todo rest todo' : OrderedSet VarId} {found : OrderedSet ConstraintId}
    (hmem : ∀ {u}, u ∈ todo ↔ u = v ∨ u ∈ rest)
    (hmem' : ∀ u, u ∈ todo' ↔ u ∈ rest ∨ s.Feeds v u) (h : s.Finds todo' found)
    (hhere : ∀ k, s.Idle k → s.Mentions k v → k ∈ found) : s.Finds todo found := by
  intro u hu w hreach k hidle hw
  rcases hmem.1 hu with rfl | hu
  · -- a variable downstream of `v` is `v` itself or downstream of one that `v` feeds
    rcases Relation.ReflTransGen.cases_head hreach with rfl | ⟨u₁, hf, hreach⟩
    · exact hhere k hidle hw
    · exact h u₁ ((hmem' u₁).2 (.inr hf)) w hreach k hidle hw
  · exact h u ((hmem' u).2 (.inl hu)) w hreach k hidle hw

/-- Repainting enables nothing and puts no method in force. -/
theorem Repaints.idle (h : s.Repaints s') : s'.Idle k ↔ s.Idle k := by
  unfold Idle
  rw [h.constraintAt]

/-- What a walk has to find does not depend on cells, walk strengths and constancies. -/
theorem Repaints.finds (h : s.Repaints s') {todo : OrderedSet VarId}
    {found : OrderedSet ConstraintId} : s'.Finds todo found ↔ s.Finds todo found := by
  unfold Finds Mentions
  rw [h.reaches]
  simp only [h.idle, h.constraintAt]

/-- The idle constraints that mention a variable are incident to it and have no method in force. -/
theorem WellFormed.mem_unenforced (h : s.WellFormed) {x : Variable T}
    (hx : s.variableAt? v = some x) (hidle : s.Idle k) (hv : s.Mentions k v) :
    k ∈ x.incident.toList.filter s.isUnenforced := by
  obtain ⟨node, hnode, hen, hnone⟩ := hidle
  obtain ⟨node', hnode', hmem⟩ := hv
  obtain rfl := Option.some.inj (hnode.symm.trans hnode')
  refine List.mem_filter.2 ⟨(h.incident hx k).2 ⟨node, hnode, hen, hmem⟩, ?_⟩
  rw [isUnenforced, hnode, Option.any_some, Constraint.isEnforcing, hnone]
  rfl

/-! ## Following what changes -/

/-- A step that is ready runs the method in force of its constraint, and its output is unclaimed. -/
theorem readyStep?_eq_some {mark : Mark} {step : PlanStep}
    (h : s.readyStep? mark c = .ok (some step)) :
    ∃ node, step.constraint = c ∧ s.constraintAt? c = some node ∧
      node.enforcing = some step.method ∧ node.output? = some step.output ∧
      ∃ x, s.variableAt? step.output = some x ∧ x.mark ≠ mark := by
  unfold readyStep? lookupConstraint lookupVariable at h
  cases hnode : s.constraintAt? c with
  | none =>
    rw [hnode] at h
    cases h
  | some node =>
    simp only [hnode, bind, Except.bind] at h
    split at h
    · next i output hi hout =>
      cases hx : s.variableAt? output with
      | none =>
        rw [hx] at h
        cases h
      | some x =>
        simp only [hx] at h
        split at h
        · cases h
        · next hmark =>
          cases hk : s.allKnown mark (node.definition.vars.filter (· ≠ output)) with
          | error e =>
            simp only [hk] at h
            cases h
          | ok known =>
            simp only [hk] at h
            split at h
            · -- every other branch gives no step or fails
              obtain rfl := Option.some.inj (Except.ok.inj h)
              exact ⟨node, rfl, rfl, hi, hout, x, hx, hmark⟩
            · cases h
    · cases h

end Solver

namespace SolveM

open Solver (Walked)

variable {W T : Type} {m : Machine W T}

/-- What a step of a sweep comes to if the graph is well formed and the worklist consists of
constraints that exist. It takes the oldest constraint from the worklist. If that determines a variable
which is not claimed, it is recalculated, and what reads the variable is on the worklist in addition. -/
theorem Ensures.sweep_succ {mark : Mark} {fuel : Nat} {todo : OrderedSet ConstraintId}
    {Q : Except SolveError (Option (ConstraintId × VarId)) → Machine W T → Prop}
    (h : m.solver.WellFormed) (hlive : ∀ k ∈ todo, (m.solver.constraintAt? k).isSome)
    (hempty : (∀ k, k ∉ todo) → Q (.ok none) m)
    (hskip : ∀ c (rest : OrderedSet ConstraintId), (∀ k, k ∈ todo ↔ k = c ∨ k ∈ rest) →
      (∀ o, ¬ m.solver.Determines c o) → Ensures (sweep mark fuel rest) m Q)
    (hclaimed : ∀ c o x, c ∈ todo → m.solver.Determines c o → m.solver.variableAt? o = some x →
      x.mark = mark → Q (.ok (some (c, o))) m)
    (hnext : ∀ c (rest : OrderedSet ConstraintId) o (m₁ : Machine W T)
      (next : OrderedSet ConstraintId),
      (∀ k, k ∈ todo ↔ k = c ∨ k ∈ rest) → m.solver.Determines c o →
      m.solver.Walked m₁.solver → exec (recalculate c) m = some (.ok (), m₁) →
      (∀ k, k ∈ next ↔ k ∈ rest ∨ ∃ w, m.solver.Reads k o w) →
      (∀ k ∈ next, (m₁.solver.constraintAt? k).isSome) → Ensures (sweep mark fuel next) m₁ Q) :
    Ensures (sweep mark (fuel + 1) todo) m Q := by
  unfold sweep
  cases hpop : todo.pop? with
  | none => exact (ensures_pure _).2 (hempty fun _ => OrderedSet.not_mem_of_pop? hpop)
  | some p =>
    obtain ⟨c, rest⟩ := p
    have hmem : ∀ k, k ∈ todo ↔ k = c ∨ k ∈ rest := fun _ => OrderedSet.mem_of_pop? hpop
    have hc : c ∈ todo := (hmem c).2 (.inl rfl)
    obtain ⟨node, hnode⟩ := Option.isSome_iff_exists.1 (hlive c hc)
    simp only
    rw [ensures_bind]
    refine .getConstraint hnode ?_
    cases hout : node.output? with
    | none =>
      simp only [hout]
      refine hskip c rest hmem ?_
      rintro o ⟨node', hnode', hout'⟩
      obtain rfl := Option.some.inj (hnode.symm.trans hnode')
      rw [hout] at hout'
      cases hout'
    | some o =>
      have hdet : m.solver.Determines c o := ⟨node, hnode, hout⟩
      obtain ⟨x, hx⟩ := Option.isSome_iff_exists.1
        (h.mentioned hnode o (Constraint.mem_vars_of_output? hout))
      simp only [hout]
      rw [ensures_bind]
      refine .getVariable hx ?_
      simp only
      split
      · next hmark => exact (ensures_pure _).2 (hclaimed c o x hc hdet hx hmark)
      · rw [ensures_bind]
        intro r m₁ hrun
        obtain ⟨rfl, hr₁, -, -⟩ := ensures_recalculate True h.toGrounded hnode r m₁ hrun
        obtain ⟨x₁, hx₁⟩ := Option.isSome_iff_exists.1 ((hr₁.live o).trans (hx ▸ rfl))
        simp only
        rw [ensures_bind]
        refine .getVariable hx₁ ?_
        simp only [ensures_bind, ensures_ask]
        have hinsert : ∀ k, k ∈ rest.insertAll (m₁.solver.consumers x₁) ↔
            k ∈ rest ∨ ∃ w, m.solver.Reads k o w := by
          intro k
          rw [OrderedSet.mem_insertAll, (h.repaints hr₁.toRepaints).mem_consumers hx₁]
          simp only [Solver.reads_congr hr₁.constraintAt]
        -- the new members of the worklist read the output, so they exist
        refine hnext c rest o m₁ _ hmem hdet hr₁ hrun hinsert fun k hk => ?_
        rw [hr₁.constraintAt]
        rcases (hinsert k).1 hk with hk | ⟨w, n, hn, _⟩
        · exact hlive k ((hmem k).2 (.inr hk))
        · rw [hn]
          rfl

/-- A sweep does not fail: all that it looks up exists. -/
theorem ensures_sweep_ok {mark : Mark} {fuel : Nat} {todo : OrderedSet ConstraintId}
    (h : m.solver.WellFormed) (hlive : ∀ k ∈ todo, (m.solver.constraintAt? k).isSome) :
    Ensures (sweep mark fuel todo) m fun r _ => ∃ closed, r = .ok closed := by
  induction fuel generalizing m todo with
  | zero => exact ensures_unfinished
  | succ fuel ih =>
    refine .sweep_succ h hlive (fun _ => ⟨_, rfl⟩) ?_ (fun _ _ _ _ _ _ _ => ⟨_, rfl⟩) ?_
    · intro c rest hmem _
      exact ih h fun k hk => hlive k ((hmem k).2 (.inr hk))
    · intro c rest o m₁ next _ _ hr₁ _ _ hlive₁
      exact ih (h.repaints hr₁.toRepaints) hlive₁

section Renewable

variable {fine : Solver W T → Ledger T → ConstraintId → Prop} (hfine : Solver.Renewable fine)
include hfine

/-- A recalculation brings about the condition for the constraint, and takes it only from constraints that
compute something from its output. -/
theorem ensures_recalculate_renews {c : ConstraintId} {node : Constraint W T}
    (h : m.solver.WellFormed) (hnode : m.solver.constraintAt? c = some node) :
    Ensures (recalculate c) m fun _ m₁ => fine m₁.solver m₁.ledger c ∧
      ∀ k, fine m.solver m.ledger k → fine m₁.solver m₁.ledger k ∨
        ∃ o w, m.solver.Determines c o ∧ m.solver.Reads k o w := by
  refine (((ensures_recalculate True h.toGrounded hnode).and
    (ensures_recalculate_ledger h.toGrounded hnode)).and
      (hfine.of_recalculate h.toGrounded hnode)).mono ?_
  rintro r m₁ ⟨⟨⟨-, hr, -, hsame⟩, hledger⟩, hc⟩
  exact ⟨hc, fun k => hfine.or_reads h hr.toRepaints hsame hledger hc⟩

/-- What a sweep comes to. The invariant is that every constraint that does not meet the condition is on
the worklist. -/
theorem ensures_sweep {mark : Mark} {fuel : Nat} {todo : OrderedSet ConstraintId}
    (h : m.solver.WellFormed) (hlive : ∀ k ∈ todo, (m.solver.constraintAt? k).isSome)
    (hpending : ∀ k, ¬ fine m.solver m.ledger k → k ∈ todo) :
    Ensures (sweep mark fuel todo) m fun r m' => m.solver.Walked m'.solver ∧
      Solver.Swept (fine m'.solver m'.ledger) mark m.solver todo r := by
  induction fuel generalizing m todo with
  | zero => exact ensures_unfinished
  | succ fuel ih =>
    refine .sweep_succ h hlive (fun hempty => ?_) (fun c rest hmem hno => ?_)
      (fun c o x hc hdet hx hmark => ?_)
      fun c rest o m₁ next hmem hdet hr₁ hrun hnext hlive₁ => ?_
    · -- the worklist is empty, so by the invariant nothing is left to do
      refine ⟨Walked.transitive.refl _, fun k => ?_, fun k hk => absurd hk (hempty k)⟩
      by_contra hk
      exact hempty k (hpending k hk)
    · -- nothing to do for a constraint without a method in force
      have hlive₁ : ∀ k ∈ rest, (m.solver.constraintAt? k).isSome :=
        fun k hk => hlive k ((hmem k).2 (.inr hk))
      refine (ih h hlive₁ fun k hk => ?_).mono ?_
      · refine ((hmem k).1 (hpending k hk)).resolve_left ?_
        rintro rfl
        exact hk (hfine.of_idle hno)
      · rintro r m' ⟨hr, hswept⟩
        exact ⟨hr, hswept.of_rest (hmem _) hno⟩
    · -- the output is claimed, and the rest of the worklist is left as it is
      refine ⟨Walked.transitive.refl _, hdet, ⟨x, hx, hmark⟩, ⟨c, hc, o, hdet, .refl⟩, fun k hk => ?_⟩
      obtain ⟨w, hw⟩ := hfine.determines_of_not hk
      exact ⟨w, hw, k, hpending k hk, w, hw, .refl⟩
    · -- what has lost the condition reads the output
      obtain ⟨node, hnode, _⟩ := id hdet
      obtain ⟨hc, hrenews⟩ := ensures_recalculate_renews hfine h hnode _ m₁ hrun
      have hpending₁ : ∀ k, ¬ fine m₁.solver m₁.ledger k → k ∈ next := by
        intro k hk
        rw [hnext]
        by_cases hold : fine m.solver m.ledger k
        · obtain ⟨o', w, hdet', hreads⟩ := (hrenews k hold).resolve_left hk
          obtain rfl := hdet.unique hdet'
          exact .inr ⟨w, hreads⟩
        · refine .inl (((hmem k).1 (hpending k hold)).resolve_left ?_)
          rintro rfl
          exact hk hc
      refine (ih (h.repaints hr₁.toRepaints) hlive₁ hpending₁).mono ?_
      rintro r m' ⟨hr, hswept⟩
      exact ⟨Walked.transitive.trans hr₁ hr,
        (hswept.of_repaints hr₁.toRepaints).of_consumers (hmem _) hdet (hnext _)⟩

/-! ## Following a vacated variable -/

/-- Refreshing constraints brings about the condition for them. The invariant is that every constraint that
does not meet it is to be refreshed or is found downstream of `P`, which holds of the outputs refreshed. -/
theorem ensures_refresh {P : VarId → Prop} {cs : List ConstraintId}
    {todo : OrderedSet VarId} (h : m.solver.WellFormed)
    (hlive : ∀ k ∈ cs, (m.solver.constraintAt? k).isSome)
    (hP : ∀ k ∈ cs, ∀ o, m.solver.Determines k o → P o)
    (hpending : ∀ k, ¬ fine m.solver m.ledger k → k ∈ cs ∨ m.solver.Under P k) :
    Ensures (refresh cs todo) m fun r m' => m.solver.Walked m'.solver ∧
      (∃ todo', r = .ok todo' ∧
        ∀ v, v ∈ todo' ↔ v ∈ todo ∨ ∃ k ∈ cs, m.solver.Determines k v) ∧
      ∀ k, ¬ fine m'.solver m'.ledger k → m.solver.Under P k := by
  induction cs generalizing m todo with
  | nil =>
    unfold refresh
    rw [ensures_pure]
    refine ⟨Walked.transitive.refl _, ⟨todo, rfl, by simp⟩, fun k hk => ?_⟩
    exact (hpending k hk).resolve_left List.not_mem_nil
  | cons c cs ih =>
    obtain ⟨node, hnode⟩ := Option.isSome_iff_exists.1 (hlive c List.mem_cons_self)
    unfold refresh
    rw [ensures_bind]
    refine ((ensures_recalculate True h.toGrounded hnode).and
      (ensures_recalculate_renews hfine h hnode)).mono ?_
    rintro _ m₁ ⟨⟨rfl, hr₁, -, -⟩, hc, hrenews⟩
    have h₁ := h.repaints hr₁.toRepaints
    have hlive₁ : ∀ k ∈ cs, (m₁.solver.constraintAt? k).isSome := by
      intro k hk
      rw [hr₁.constraintAt]
      exact hlive k (List.mem_cons_of_mem c hk)
    have hP₁ : ∀ k ∈ cs, ∀ o, m₁.solver.Determines k o → P o :=
      fun k hk o ho => hP k (List.mem_cons_of_mem c hk) o (hr₁.determines.1 ho)
    -- recalculating `c` renews it, and takes the condition only from what reads its output
    have hpending₁ : ∀ k, ¬ fine m₁.solver m₁.ledger k → k ∈ cs ∨ m₁.solver.Under P k := by
      intro k hk
      rw [hr₁.under]
      by_cases hold : fine m.solver m.ledger k
      · obtain ⟨o, w, hdet, hreads⟩ := (hrenews k hold).resolve_left hk
        exact .inr ⟨o, hP c List.mem_cons_self o hdet, o, w, .refl, hreads⟩
      · refine (hpending k hold).imp_left fun hmem => (List.mem_cons.1 hmem).resolve_left ?_
        rintro rfl
        exact hk hc
    simp only
    rw [ensures_bind]
    refine .getConstraint ((hr₁.constraintAt c).trans hnode) ?_
    -- what the rest of the list comes to, with whatever worklist it begins
    have hrest : ∀ todo₁ : OrderedSet VarId,
        (∀ v, v ∈ todo₁ ↔ v ∈ todo ∨ m.solver.Determines c v) →
        Ensures (refresh cs todo₁) m₁ fun r m' => m.solver.Walked m'.solver ∧
          (∃ todo', r = .ok todo' ∧
            ∀ v, v ∈ todo' ↔ v ∈ todo ∨ ∃ k ∈ c :: cs, m.solver.Determines k v) ∧
          ∀ k, ¬ fine m'.solver m'.ledger k → m.solver.Under P k := by
      intro todo₁ htodo₁
      refine (ih h₁ hlive₁ hP₁ hpending₁).mono ?_
      rintro r m' ⟨hr, ⟨todo', hok, htodo'⟩, hall⟩
      refine ⟨Walked.transitive.trans hr₁ hr, ⟨todo', hok, fun v => ?_⟩,
        fun k hk => hr₁.under.1 (hall k hk)⟩
      rw [htodo', htodo₁, or_assoc]
      simp only [List.mem_cons, exists_eq_or_imp, hr₁.determines]
    cases hout : node.output? with
    | none =>
      simp only [hout]
      refine hrest todo fun v => ⟨.inl, fun hv => hv.resolve_right ?_⟩
      rintro ⟨node', hnode', hout'⟩
      obtain rfl := Option.some.inj (hnode.symm.trans hnode')
      rw [hout] at hout'
      cases hout'
    | some o =>
      simp only [hout]
      refine hrest _ fun v => ?_
      rw [OrderedSet.mem_insert]
      refine or_congr_right ⟨?_, fun hv => hv.unique ⟨node, hnode, hout⟩⟩
      rintro rfl
      exact ⟨node, hnode, hout⟩

/-- When the walk from a worklist comes to its end, every constraint meets the condition and all paths
downstream of the worklist end. The invariant is that every constraint that does not meet the condition
is found downstream of the worklist. -/
theorem ensures_strandedFrom {fuel : Nat} {todo : OrderedSet VarId}
    {found : OrderedSet ConstraintId} (h : m.solver.WellFormed)
    (hlive : ∀ v ∈ todo, (m.solver.variableAt? v).isSome)
    (hpending : ∀ k, ¬ fine m.solver m.ledger k → m.solver.Under (· ∈ todo) k) :
    Ensures (strandedFrom fuel todo found) m fun r m' => m.solver.Walked m'.solver ∧
      (∃ found', r = .ok found' ∧ (∀ k ∈ found, k ∈ found') ∧ m.solver.Finds todo found') ∧
      (∀ k, fine m'.solver m'.ledger k) ∧ ∀ v ∈ todo, m.solver.Ends v := by
  induction fuel generalizing m todo found with
  | zero => exact ensures_unfinished
  | succ fuel ih =>
    unfold strandedFrom
    cases hpop : todo.pop? with
    | none =>
      rw [ensures_pure]
      refine ⟨Walked.transitive.refl _, ⟨found, rfl, fun _ => id, fun v hv => ?_⟩, fun k => ?_,
        fun v hv => ?_⟩
      · exact absurd hv (OrderedSet.not_mem_of_pop? hpop)
      · -- nothing is downstream of an empty worklist
        by_contra hk
        obtain ⟨v, hv, _⟩ := hpending k hk
        exact OrderedSet.not_mem_of_pop? hpop hv
      · exact absurd hv (OrderedSet.not_mem_of_pop? hpop)
    | some p =>
      obtain ⟨v, rest⟩ := p
      have hmem : ∀ {u}, u ∈ todo ↔ u = v ∨ u ∈ rest := OrderedSet.mem_of_pop? hpop
      obtain ⟨x, hx⟩ := Option.isSome_iff_exists.1 (hlive v (hmem.2 (.inl rfl)))
      simp only
      rw [ensures_bind]
      refine .getVariable hx ?_
      simp only [ensures_bind, ensures_ask]
      refine (ensures_refresh hfine (P := fun u => u ∈ rest ∨ m.solver.Feeds v u) h ?_
        (fun k hk o ho => .inr ((h.feeds_iff hx).2 ⟨k, hk, ho⟩)) ?_).mono ?_
      · -- the consumers of the variable taken are refreshed
        intro k hk
        obtain ⟨w, node, hnode, _⟩ := (h.mem_consumers hx).1 hk
        rw [hnode]
        rfl
      · intro k hk
        exact ((hpending k hk).of_taken hmem).imp_left (h.mem_consumers hx).2
      · rintro _ m₁ ⟨hr₁, ⟨todo₁, rfl, htodo₁⟩, hunder⟩
        -- the walk goes on with what the variable feeds
        have hnext : ∀ u, u ∈ todo₁ ↔ u ∈ rest ∨ m.solver.Feeds v u :=
          fun u => (htodo₁ u).trans (or_congr_right (h.feeds_iff hx).symm)
        simp only
        refine (ih (h.repaints hr₁.toRepaints) ?_ ?_).mono ?_
        · intro u hu
          rw [hr₁.live]
          rcases (hnext u).1 hu with hu | ⟨k, node, hnode, hout, _⟩
          · exact hlive u (hmem.2 (.inr hu))
          · exact h.mentioned hnode u (Constraint.mem_vars_of_output? hout)
        · intro k hk
          obtain ⟨u₀, hu₀, hrest⟩ := hr₁.under.2 (hunder k hk)
          exact ⟨u₀, (hnext u₀).2 hu₀, hrest⟩
        · rintro r m' ⟨hr, ⟨found', hok, hsub, hfinds⟩, hall, hends⟩
          have hnew : ∀ k, k ∈ found ∨ k ∈ x.incident.toList.filter m.solver.isUnenforced →
              k ∈ found' := fun k hk => hsub k (OrderedSet.mem_insertAll.2 hk)
          refine ⟨Walked.transitive.trans hr₁ hr, ⟨found', hok, fun k hk => hnew k (.inl hk),
            (hr₁.finds.1 hfinds).of_next hmem hnext fun k hidle hv =>
              hnew k (.inr (h.mem_unenforced hx hidle hv))⟩, hall, fun u hu => ?_⟩
          rcases hmem.1 hu with rfl | hu
          · -- all walks from the variable taken end, since those from what it feeds do
            exact .intro u fun w hf => hr₁.ends.1 (hends w ((hnext w).2 (.inr hf)))
          · exact hr₁.ends.1 (hends u ((hnext u).2 (.inl hu)))

end Renewable

end SolveM

end DeltaBlue
