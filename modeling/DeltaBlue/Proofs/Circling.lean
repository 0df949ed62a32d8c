import Mathlib.Data.Set.Card
import Mathlib.Logic.Hydra
import DeltaBlue.Plan
import DeltaBlue.Proofs.Resolution
import DeltaBlue.Proofs.Walks

/-!
# Walks return unless they go round

A walk takes the oldest member from its worklist and inserts members that come after it in the
graph. Where there is no cycle this cannot go on for ever, although a member may be inserted many
times: a worklist in which one member is replaced by finitely many later ones is smaller in a
well-founded order. Planning inserts members after it has claimed a variable, so it returns on every
graph.
-/

namespace DeltaBlue

namespace OrderedSet

open Relation

variable {α : Type} {s rest todo todo' : OrderedSet α} {a : α}

/-- The oldest member is taken. -/
theorem toList_of_pop? (h : s.pop? = some (a, rest)) : s.toList = a :: rest.toList := by
  obtain ⟨l, hl⟩ := s
  cases l with
  | nil => cases h
  | cons c l =>
    obtain ⟨rfl, rfl⟩ := Prod.mk.inj (Option.some.inj h)
    rfl

/-- A new member comes last. -/
theorem toList_insert [DecidableEq α] (s : OrderedSet α) (a : α) :
    ∃ t, (s.insert a).toList = s.toList ++ t ∧ ∀ b ∈ t, b = a := by
  unfold insert
  split
  · exact ⟨[], (List.append_nil _).symm, by simp⟩
  · exact ⟨[a], rfl, fun b hb => List.mem_singleton.1 hb⟩

/-- New members come last, in whatever number. -/
theorem toList_insertAll [DecidableEq α] (s : OrderedSet α) (as : List α) :
    ∃ t, (s.insertAll as).toList = s.toList ++ t ∧ ∀ b ∈ t, b ∈ as := by
  induction as generalizing s with
  | nil => exact ⟨[], (List.append_nil _).symm, nofun⟩
  | cons a as ih =>
    obtain ⟨t, ht, hmem⟩ := s.toList_insert a
    obtain ⟨t', ht', hmem'⟩ := ih (s.insert a)
    refine ⟨t ++ t', ?_, fun b hb => ?_⟩
    · rw [← List.append_assoc, ← ht]
      exact ht'
    · rcases List.mem_append.1 hb with hb | hb
      · rw [hmem b hb]
        exact List.mem_cons_self
      · exact List.mem_cons_of_mem a (hmem' b hb)

/-- A worklist comes from another by replacing one member by later ones. -/
def Replaces (r : α → α → Prop) (todo' todo : OrderedSet α) : Prop :=
  CutExpand r (todo'.toList : Multiset α) (todo.toList : Multiset α)

/-- Replacing members by later ones comes to an end if the members cannot be followed for ever. This
is the hydra's order on worklists. -/
theorem wellFounded_replaces {r : α → α → Prop} (h : WellFounded r) :
    WellFounded (Replaces r) :=
  InvImage.wf (fun todo : OrderedSet α => (todo.toList : Multiset α)) h.cutExpand

/-- What a round of a walk does to its worklist: the oldest member is taken, and later ones are
added. -/
theorem replaces_of_pop? {r : α → α → Prop} {t : List α} (hpop : todo.pop? = some (a, rest))
    (htodo' : todo'.toList = rest.toList ++ t) (ht : ∀ b ∈ t, r b a) : Replaces r todo' todo := by
  refine ⟨t, a, fun b hb => ht b (Multiset.mem_coe.1 hb), ?_⟩
  rw [htodo', toList_of_pop? hpop, ← Multiset.coe_add, ← Multiset.cons_coe, Multiset.cons_add,
    Multiset.add_comm _ {a}, Multiset.singleton_add]

end OrderedSet

namespace Solver

variable {W T : Type} {s s' : Solver W T}

/-- A walk goes on along the edges. -/
theorem WellFormed.feeds_of_next (h : s.WellFormed) {v w : VarId} (hnext : s.Next v w) : s.Feeds v w := by
  obtain ⟨x, k, node, hx, hk, hnode, hout⟩ := hnext
  obtain ⟨u, hreads⟩ := (h.mem_consumers hx).1 hk
  obtain rfl := hreads.determines.unique ⟨node, hnode, hout⟩
  exact ⟨k, hreads⟩

/-- A sweep goes on from `k` to `k'`: what `k` determines is unclaimed, and `k'` reads it. -/
def After (s : Solver W T) (mark : Mark) (k' k : ConstraintId) : Prop :=
  ∃ o x, s.Determines k o ∧ s.variableAt? o = some x ∧ x.mark ≠ mark ∧ k' ∈ s.consumers x

/-- A walk goes on from an unclaimed variable. -/
def NextUnclaimed (s : Solver W T) (mark : Mark) (w v : VarId) : Prop :=
  s.Next v w ∧ ∃ x, s.variableAt? v = some x ∧ x.mark ≠ mark

/-- Where no walk over unclaimed variables goes on for ever, constraints cannot follow each other for
ever. -/
theorem wellFounded_after {mark : Mark} (h : WellFounded (s.NextUnclaimed mark)) :
    WellFounded (s.After mark) := by
  -- by induction on the variable that the constraint determines
  have houtput : ∀ o, ∀ k, s.Determines k o → Acc (s.After mark) k := by
    intro o
    induction h.apply o with
    | intro o _ ih =>
      intro k hk
      refine .intro k fun k' ⟨o', x, ho', hx, hmark, hk'⟩ => ?_
      obtain rfl := hk.unique ho'
      -- a constraint that determines nothing is followed by none
      by_cases hnext : ∃ w, s.Determines k' w
      · obtain ⟨w, node, hnode, hout⟩ := hnext
        exact ih w ⟨⟨x, k', node, hx, hk', hnode, hout⟩, x, hx, hmark⟩ k' ⟨node, hnode, hout⟩
      · exact .intro k' fun _ ⟨w, _, hw, _⟩ => absurd ⟨w, hw⟩ hnext
  refine ⟨fun k => ?_⟩
  by_cases hk : ∃ o, s.Determines k o
  · obtain ⟨o, ho⟩ := hk
    exact houtput o k ho
  · exact .intro k fun _ ⟨o, _, ho, _⟩ => absurd ⟨o, ho⟩ hk

/-- The variable that a constraint determines, if it exists and has a method in force. -/
def outputOf? (s : Solver W T) (c : ConstraintId) : Option VarId :=
  (s.constraintAt? c).bind Constraint.output?

/-- Where the constraints are the same, so are their outputs. -/
theorem outputOf?_congr (h : ∀ c, s'.constraintAt? c = s.constraintAt? c) :
    s'.outputOf? = s.outputOf? := by
  funext c
  rw [outputOf?, outputOf?, h]

/-- The number of variables that the pass has not claimed. -/
noncomputable def unclaimed (s : Solver W T) (mark : Mark) : Nat :=
  {v | ∃ x, s.variableAt? v = some x ∧ x.mark ≠ mark}.ncard

/-- There are finitely many unclaimed variables. -/
theorem finite_unclaimed (s : Solver W T) (mark : Mark) :
    {v | ∃ x, s.variableAt? v = some x ∧ x.mark ≠ mark}.Finite := by
  refine s.finite_variables.subset ?_
  rintro v ⟨x, hx, _⟩
  exact Option.isSome_iff_exists.2 ⟨x, hx⟩

/-- Claiming variables, among them one that was unclaimed. -/
theorem unclaimed_lt {mark : Mark} {o : VarId} {x : Variable T} (hx : s.variableAt? o = some x)
    (hmark : x.mark ≠ mark)
    (h : ∀ v y', s'.variableAt? v = some y' → y'.mark ≠ mark →
      v ≠ o ∧ ∃ y, s.variableAt? v = some y ∧ y.mark ≠ mark) :
    s'.unclaimed mark < s.unclaimed mark := by
  refine Set.ncard_lt_ncard ⟨?_, fun hsub => ?_⟩ (s.finite_unclaimed mark)
  · rintro v ⟨y', hy', hne⟩
    exact (h v y' hy' hne).2
  · obtain ⟨y', hy', hne⟩ := hsub ⟨x, hx, hmark⟩
    exact (h o y' hy' hne).1 rfl

end Solver

namespace SolveM

variable {W T : Type} {m : Machine W T}

open Solver (Repaints)

/-! ## Following an installed method -/

/-- With less fuel a sweep does the same, or is stopped on the way. -/
theorem sweep_cutShort (mark : Mark) (fuel : Nat) (todo : OrderedSet ConstraintId) :
    CutShort (W := W) (T := T) (sweep mark fuel todo) (sweep mark (fuel + 1) todo) := by
  have hT := Repaints.transitive (W := W) (T := T)
  -- both make the same first round, and then the induction hypothesis is about the rest
  induction fuel generalizing todo with
  | zero => exact .unfinished _
  | succ fuel ih =>
    unfold sweep
    split
    · exact .of_total (.pure _)
    · refine .bind (.getConstraint _) (.getConstraint hT _) fun node => ?_
      split
      · exact ih _
      · refine .bind (.getVariable _) (.getVariable hT _) fun x => ?_
        split
        · exact .of_total (.pure _)
        · refine .bind (total_recalculate _) (recalculate_repaints _) fun _ => ?_
          refine .bind (.getVariable _) (.getVariable hT _) fun x => ?_
          exact .bind (.ask _) (.ask hT _) fun _ => ih _

/-- A sweep returns if constraints cannot follow each other for ever over unclaimed variables. -/
theorem sweep_returns {mark : Mark} (todo : OrderedSet ConstraintId)
    (h : WellFounded (m.solver.After mark)) :
    Returns (fun fuel => sweep mark fuel todo) m fun _ m' => m.solver.Repaints m'.solver := by
  -- the edges and the marks are those of the graph at the start, which the walk does not change
  generalize hs : m.solver = s at h ⊢
  have hgraph : s.Repaints m.solver := hs ▸ Repaints.transitive.refl _
  clear hs
  -- by induction on the worklist in the hydra's order
  induction todo using (OrderedSet.wellFounded_replaces h).induction generalizing m with
  | _ todo ih =>
  refine .succ ?_
  unfold sweep
  cases hpop : todo.pop? with
  | none => exact .of_total (.pure _) ((ensures_pure _).2 hgraph)
  | some p =>
    obtain ⟨c, rest⟩ := p
    simp only
    refine .after (.getConstraint c) ?_
    rw [ensures_getConstraint, Solver.lookupConstraint, hgraph.constraintAt]
    cases hnode : s.constraintAt? c with
    | none => exact hgraph
    | some node =>
      simp only
      cases hout : node.output? with
      | none =>
        simp only
        refine ih rest ?_ hgraph
        exact OrderedSet.replaces_of_pop? hpop (List.append_nil _).symm (by simp)
      | some o =>
        simp only
        refine .after (.getVariable o) ?_
        rw [ensures_getVariable, Solver.lookupVariable]
        cases hx : m.solver.variableAt? o with
        | none => exact hgraph
        | some x =>
          simp only
          split
          · exact .of_total (.pure _) ((ensures_pure _).2 hgraph)
          · next hmark =>
            refine .after (total_recalculate c) ((recalculate_repaints c m).mono fun r m₁ hr => ?_)
            have hgraph₁ := Repaints.transitive.trans hgraph hr
            cases r with
            | error e => exact hgraph₁
            | ok _ =>
              refine .after (.getVariable o) ?_
              rw [ensures_getVariable, Solver.lookupVariable]
              cases hx₁ : m₁.solver.variableAt? o with
              | none => exact hgraph₁
              | some x₁ =>
                -- the members that are inserted read what the one that was taken determines
                obtain ⟨y, hy, hcons⟩ := hgraph₁.consumers_eq hx₁
                refine .after (.ask _) ((ensures_ask _).2 (ih _ ?_ hgraph₁))
                obtain ⟨t, ht, hmem⟩ := rest.toList_insertAll (m₁.solver.consumers x₁)
                refine OrderedSet.replaces_of_pop? hpop ht fun k hk => ?_
                refine ⟨o, y, ⟨node, hnode, hout⟩, hy, ?_, hcons ▸ hmem k hk⟩
                obtain ⟨y', hy', _, _, hsame⟩ := hgraph.variable_of hx
                obtain rfl := Option.some.inj (hy.symm.trans hy')
                rw [← hsame]
                exact hmark

/-- A sweep returns or goes round. -/
theorem sweep_resolves (mark : Mark) (todo : OrderedSet ConstraintId) :
    Resolves (fun fuel => sweep mark fuel todo) m fun _ m' => m.solver.Repaints m'.solver := by
  refine .of_cutShort (fun fuel => sweep_cutShort mark fuel todo)
    (fun fuel => sweep_repaints mark fuel todo m) fun hacyclic => .inl (sweep_returns todo ?_)
  -- without a cycle no walk goes on for ever, over whichever variables
  exact Solver.wellFounded_after
    (Subrelation.wf (fun hnext => hnext.1) (Solver.wellFounded_next hacyclic))

/-- A sweep that stops gives a constraint and its output. -/
theorem ensures_sweep_determines (mark : Mark) (fuel : Nat) (todo : OrderedSet ConstraintId) :
    Ensures (sweep mark fuel todo) m fun r _ =>
      ∀ closing a, r = .ok (some (closing, a)) → m.solver.Determines closing a := by
  induction fuel generalizing m todo with
  | zero => exact ensures_unfinished
  | succ fuel ih =>
    unfold sweep
    cases hpop : todo.pop? with
    | none => exact (ensures_pure _).2 (by simp)
    | some p =>
      obtain ⟨c, rest⟩ := p
      simp only
      rw [ensures_bind, ensures_getConstraint, Solver.lookupConstraint]
      cases hnode : m.solver.constraintAt? c with
      | none => simp
      | some node =>
        simp only
        cases hout : node.output? with
        | none => exact ih rest
        | some o =>
          simp only
          rw [ensures_bind, ensures_getVariable]
          cases m.solver.lookupVariable o with
          | error e => simp
          | ok x =>
            simp only
            split
            · rw [ensures_pure]
              rintro closing a h
              obtain ⟨rfl, rfl⟩ := Prod.mk.inj (Option.some.inj (Except.ok.inj h))
              exact ⟨node, hnode, hout⟩
            · rw [ensures_bind]
              refine (recalculate_repaints c m).mono fun r m₁ hr => ?_
              cases r with
              | error e => simp
              | ok _ =>
                simp only
                rw [ensures_bind, ensures_getVariable]
                cases m₁.solver.lookupVariable o with
                | error e => simp
                | ok x₁ =>
                  simp only
                  rw [ensures_bind, ensures_ask]
                  refine (ih _).mono fun r _ h closing a hra => ?_
                  exact hr.determines.1 (h closing a hra)

/-! ## Following a vacated variable -/

/-- With less fuel the walk downstream does the same, or is stopped on the way. -/
theorem strandedFrom_cutShort (fuel : Nat) (todo : OrderedSet VarId)
    (found : OrderedSet ConstraintId) :
    CutShort (W := W) (T := T) (strandedFrom fuel todo found)
      (strandedFrom (fuel + 1) todo found) := by
  have hT := Repaints.transitive (W := W) (T := T)
  induction fuel generalizing todo found with
  | zero => exact .unfinished _
  | succ fuel ih =>
    unfold strandedFrom
    split
    · exact .of_total (.pure _)
    · refine .bind (.getVariable _) (.getVariable hT _) fun x => ?_
      refine .bind (.ask _) (.ask hT _) fun s => ?_
      exact .bind (total_refresh _ _) (refresh_repaints _ _) fun _ => ih _ _

/-- Refreshing constraints inserts their outputs into the worklist, in order. -/
theorem ensures_refresh_inserts (cs : List ConstraintId) (todo : OrderedSet VarId) :
    Ensures (refresh cs todo) m fun r _ => ∀ todo', r = .ok todo' →
      todo' = todo.insertAll (cs.filterMap m.solver.outputOf?) := by
  induction cs generalizing m todo with
  | nil =>
    refine (ensures_pure _).2 fun todo' h => ?_
    exact (Except.ok.inj h).symm
  | cons c cs ih =>
    unfold refresh
    rw [ensures_bind]
    refine (recalculate_repaints c m).mono fun r m₁ hr => ?_
    -- a recalculation moves no output
    have hsame := Solver.outputOf?_congr hr.constraintAt
    cases r with
    | error e => simp
    | ok _ =>
      simp only
      rw [ensures_bind, ensures_getConstraint, Solver.lookupConstraint, hr.constraintAt]
      cases hnode : m.solver.constraintAt? c with
      | none => simp
      | some node =>
        have hc : m.solver.outputOf? c = node.output? := by rw [Solver.outputOf?, hnode]; rfl
        simp only
        cases hout : node.output? with
        | none =>
          refine (ih todo).mono fun r _ h todo' hra => ?_
          rw [h todo' hra, hsame, List.filterMap_cons_none (hc.trans hout)]
        | some o =>
          refine (ih (todo.insert o)).mono fun r _ h todo' hra => ?_
          rw [h todo' hra, hsame, List.filterMap_cons_some (hc.trans hout)]
          rfl

/-- The walk from a worklist of variables returns if variables cannot feed each other for ever. -/
theorem strandedFrom_returns (todo : OrderedSet VarId) (found : OrderedSet ConstraintId)
    (h : WellFounded fun w v => m.solver.Next v w) :
    Returns (fun fuel => strandedFrom fuel todo found) m
      fun _ m' => m.solver.Repaints m'.solver := by
  -- as for a sweep, the edges stay those of the graph at the start
  generalize hs : m.solver = s at h ⊢
  have hgraph : s.Repaints m.solver := hs ▸ Repaints.transitive.refl _
  clear hs
  induction todo using (OrderedSet.wellFounded_replaces h).induction generalizing m found with
  | _ todo ih =>
  refine .succ ?_
  unfold strandedFrom
  cases hpop : todo.pop? with
  | none => exact .of_total (.pure _) ((ensures_pure _).2 hgraph)
  | some p =>
    obtain ⟨v, rest⟩ := p
    simp only
    refine .after (.getVariable v) ?_
    rw [ensures_getVariable, Solver.lookupVariable]
    cases hx : m.solver.variableAt? v with
    | none => exact hgraph
    | some x =>
      obtain ⟨y, hy, hcons⟩ := hgraph.consumers_eq hx
      refine .after (.ask _) ((ensures_ask _).2 ?_)
      refine .after (total_refresh _ _) ?_
      refine ((refresh_repaints _ rest m).and (ensures_refresh_inserts _ rest)).mono ?_
      rintro r m₁ ⟨hr, hinserts⟩
      have hgraph₁ := Repaints.transitive.trans hgraph hr
      cases r with
      | error e => exact hgraph₁
      | ok todo' =>
        obtain ⟨t, ht, hmem⟩ := rest.toList_insertAll ((m.solver.consumers x).filterMap
          m.solver.outputOf?)
        rw [hinserts todo' rfl]
        refine ih _ (OrderedSet.replaces_of_pop? hpop ht fun w hw => ?_) _ hgraph₁
        obtain ⟨k, hk, hout⟩ := List.mem_filterMap.1 (hmem w hw)
        obtain ⟨node, hnode, hout⟩ := Option.bind_eq_some_iff.1 hout
        refine ⟨y, k, node, hy, ?_, ?_, hout⟩
        · rw [← hcons]
          exact hk
        · rw [← hgraph.constraintAt]
          exact hnode

/-- The walk from a worklist of variables returns or goes round. -/
theorem strandedFrom_resolves (todo : OrderedSet VarId) (found : OrderedSet ConstraintId) :
    Resolves (fun fuel => strandedFrom fuel todo found) m
      fun _ m' => m.solver.Repaints m'.solver :=
  .of_cutShort (fun fuel => strandedFrom_cutShort fuel todo found)
    (fun fuel => strandedFrom_repaints fuel todo found m)
    fun hacyclic => .inl (strandedFrom_returns todo found (Solver.wellFounded_next hacyclic))

/-! ## Planning -/

/-- Planning returns on every graph. -/
theorem schedule_returns (mark : Mark) (hot : OrderedSet ConstraintId) :
    Returns (fun fuel => schedule mark fuel hot) m fun _ _ => True := by
  -- a step leaves fewer variables unclaimed, and without one the worklist gets shorter
  induction hn : m.solver.unclaimed mark using Nat.strong_induction_on generalizing m hot with
  | _ n ih =>
  induction hk : hot.toList.length using Nat.strong_induction_on generalizing hot with
  | _ k ihk =>
  refine .succ ?_
  unfold schedule
  cases hpop : hot.pop? with
  | none => exact .of_total (.pure _) ((ensures_pure _).2 trivial)
  | some p =>
    obtain ⟨c, rest⟩ := p
    simp only
    refine .after (.query _) ((ensures_query _).2 ?_)
    cases hready : m.solver.readyStep? mark c with
    | error e => trivial
    | ok ready =>
      cases ready with
      | none =>
        -- nothing is ready, and the list has lost a member
        refine ihk _ ?_ rest rfl
        rw [← hk, OrderedSet.toList_of_pop? hpop, List.length_cons]
        exact Nat.lt_succ_self _
      | some step =>
        obtain ⟨_, _, _, _, _, x, hx, hmark⟩ := Solver.readyStep?_eq_some hready
        simp only
        refine .after (.changeVariable _ _) (.changeVariable hx ?_)
        refine .after (.getVariable _) ?_
        rw [ensures_getVariable]
        cases (m.solver.modifyVariable step.output fun x => { x with mark := mark }).lookupVariable
            step.output with
        | error e => trivial
        | ok x₁ =>
          simp only
          refine .after (.ask _) ((ensures_ask _).2 ?_)
          refine .bind (ih _ ?_ _ rfl) (fun _ _ _ => trivial) fun _ _ _ =>
            .of_total (.pure _) ((ensures_pure _).2 trivial)
          rw [← hn]
          -- the output of the step is claimed, and no variable loses its mark
          refine Solver.unclaimed_lt hx hmark fun v y' hy' hne => ?_
          simp only [Solver.variableAt?_modifyVariable] at hy'
          split at hy'
          · next hv =>
            obtain ⟨y, _, rfl⟩ := Option.map_eq_some_iff.1 hy'
            exact absurd rfl hne
          · next hv => exact ⟨hv, y', hy', hne⟩

end SolveM

end DeltaBlue
