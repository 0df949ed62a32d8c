import DeltaBlue.Proofs.Detection
import DeltaBlue.Proofs.Drafting
import DeltaBlue.Proofs.Validity
import DeltaBlue.Proofs.Values

/-!
# What is stranded when a variable is vacated

The walk from a vacated variable takes variables from a worklist, refreshes the constraints that read
them, and puts the outputs of these at the end of the worklist. A variable that was taken may come back, if
it is fed over several ways, so what bounds the walk is not the number of variables but that no way
downstream goes on for ever. Which variables are visited in which order is a matter of the graph alone
(`Solver.Visits`), for refreshing changes no edge. The visited variables are those downstream of the vacated
one (`Visits.mem_iff`), and the list that is returned ranks what is stranded there in order of first mention
(`Solver.Strands`).

Refreshing brings every output up to date that is computed from a visited variable. The others were up to
date before; only their cells may be off, if a plan was executed that some other solver built.
-/

namespace DeltaBlue

open Relation

namespace Solver

variable {W T : Type} {s s' : Solver W T} {c k : ConstraintId} {node : Constraint W T} {v w o : VarId}
  {x : Variable T}

/-! ## The way of the walk -/

/-- The constraints that a variable is incident to, in order. -/
def incidentAt (s : Solver W T) (v : VarId) : List ConstraintId :=
  ((s.variableAt? v).map fun x => x.incident.toList).getD []

/-- The constraints without a method in force that a variable is incident to, in order. -/
def strandedAt (s : Solver W T) (v : VarId) : List ConstraintId :=
  (s.incidentAt v).filter s.isUnenforced

/-- The variables that a variable feeds, in the order in which it is incident to the constraints that
compute them. -/
def fedBy (s : Solver W T) (v : VarId) : List VarId :=
  ((s.incidentAt v).filterMap s.outputOf?).filter (· ≠ v)

/-- The variables that a walk from the worklist visits, in order. The oldest variable of the worklist is
visited, and the variables that it feeds are put at the end, unless they are on it. -/
inductive Visits (s : Solver W T) : OrderedSet VarId → List VarId → Prop
  /-- The worklist is empty. -/
  | stop {todo : OrderedSet VarId} (hpop : todo.pop? = none) : Visits s todo []
  /-- The oldest variable is visited. -/
  | visit {todo rest : OrderedSet VarId} {v : VarId} {visited : List VarId}
    (hpop : todo.pop? = some (v, rest)) (hrest : Visits s (rest.insertAll (s.fedBy v)) visited) :
    Visits s todo (v :: visited)

/-- What a variable that exists is incident to is read off its record. -/
theorem incidentAt_eq (hx : s.variableAt? v = some x) : s.incidentAt v = x.incident.toList := by
  rw [incidentAt, hx]
  rfl

/-- Repainting changes no incidence. -/
theorem Repaints.incidentAt (hr : s.Repaints s') : s'.incidentAt = s.incidentAt := by
  funext v
  have hshape := congrArg (Option.map fun shape => shape.2.1.toList) (hr.shape v)
  rw [Option.map_map, Option.map_map] at hshape
  exact congrArg (·.getD []) hshape

/-- A change of a record that leaves its incident constraints alone changes no incidence. -/
theorem incidentAt_modifyVariable {f : Variable T → Variable T} (hf : ∀ x, (f x).incident = x.incident) :
    (s.modifyVariable v f).incidentAt = s.incidentAt := by
  funext w
  unfold incidentAt
  rw [variableAt?_modifyVariable]
  split
  · next hw =>
    subst hw
    rw [Option.map_map]
    simp only [Function.comp_def, hf]
  · rfl

/-- Whether a constraint is without a method in force is read off its record. -/
theorem isUnenforced_congr (hc : ∀ c, s'.constraintAt? c = s.constraintAt? c) :
    s'.isUnenforced = s.isUnenforced := by
  funext k
  rw [isUnenforced, isUnenforced, hc]

/-- The output of a constraint is the variable that it determines. -/
theorem outputOf?_eq_some_iff : s.outputOf? k = some w ↔ s.Determines k w :=
  Option.bind_eq_some_iff

section WellFormed

variable (h : s.WellFormed)
include h

/-- A variable is incident to the enabled constraints that mention it. -/
theorem WellFormed.mem_incidentAt :
    k ∈ s.incidentAt v ↔ ∃ node, s.constraintAt? k = some node ∧ node.enabled = true ∧
      v ∈ node.definition.vars := by
  cases hx : s.variableAt? v with
  | some x =>
    rw [incidentAt_eq hx]
    exact h.incident hx k
  | none =>
    rw [incidentAt, hx]
    -- constraints mention variables that exist only
    refine iff_of_false List.not_mem_nil ?_
    rintro ⟨node, hnode, -, hv⟩
    have hlive := h.mentioned hnode v hv
    rw [hx] at hlive
    cases hlive

/-- What is stranded at a variable are the idle constraints that mention it. -/
theorem WellFormed.mem_strandedAt : k ∈ s.strandedAt v ↔ s.Idle k ∧ s.Mentions k v := by
  rw [strandedAt, List.mem_filter, h.mem_incidentAt]
  constructor
  · rintro ⟨⟨node, hnode, hen, hv⟩, hfree⟩
    rw [isUnenforced, hnode, Option.any_some, Bool.not_eq_true', Constraint.isEnforcing,
      Option.isSome_eq_false_iff, Option.isNone_iff_eq_none] at hfree
    exact ⟨⟨node, hnode, hen, hfree⟩, node, hnode, hv⟩
  · rintro ⟨⟨node, hnode, hen, hfree⟩, node', hnode', hv⟩
    obtain rfl := Option.some.inj (hnode.symm.trans hnode')
    refine ⟨⟨node, hnode, hen, hv⟩, ?_⟩
    rw [isUnenforced, hnode, Option.any_some, Constraint.isEnforcing, hfree]
    rfl

/-- What a variable feeds is what is computed from it. -/
theorem WellFormed.mem_fedBy : w ∈ s.fedBy v ↔ s.Feeds v w := by
  rw [fedBy, List.mem_filter, List.mem_filterMap]
  simp only [h.mem_incidentAt, outputOf?_eq_some_iff, decide_eq_true_eq]
  constructor
  · rintro ⟨⟨k, ⟨node, hnode, -, hv⟩, node', hnode', hout⟩, hne⟩
    obtain rfl := Option.some.inj (hnode.symm.trans hnode')
    exact ⟨k, node, hnode, hout, hv, hne.symm⟩
  · rintro ⟨k, node, hnode, hout, hv, hne⟩
    obtain ⟨i, _, hi, _⟩ := Constraint.output?_eq_some_iff.1 hout
    exact ⟨⟨k, ⟨node, hnode, (h.enforcing hnode hi).1, hv⟩, node, hnode, hout⟩, hne.symm⟩

/-- The walk looks at the constraints that read the variable; their outputs are what the variable feeds. -/
theorem WellFormed.filterMap_consumers (hx : s.variableAt? v = some x) :
    (s.consumers x).filterMap s.outputOf? = s.fedBy v := by
  rw [fedBy, incidentAt_eq hx, List.filter_filterMap, consumers, List.filterMap_filter]
  refine List.filterMap_congr fun k _ => ?_
  cases hout : s.outputOf? k with
  | none => simp
  | some w =>
    have hdet : s.Determines k w := outputOf?_eq_some_iff.1 hout
    -- reading the variable and not determining it come to the same for its constraints
    have hread : (some k ≠ x.determinedBy) ↔ w ≠ v := by
      rw [ne_comm, ne_eq, h.determined hx k, not_iff_not]
      exact ⟨fun hv => hdet.unique hv, fun hwv => hwv ▸ hdet⟩
    have hforce : s.isEnforcing k = true := by
      obtain ⟨node, hnode, hw⟩ := hdet
      obtain ⟨i, _, hi, _⟩ := Constraint.output?_eq_some_iff.1 hw
      rw [isEnforcing, hnode, Option.any_some, Constraint.isEnforcing, hi]
      rfl
    by_cases hwv : w = v
    · simp [Option.filter, hforce, hwv, not_not.1 (hread.not.2 (not_not.2 hwv))]
    · simp [Option.filter, hforce, hwv, hread.2 hwv]

/-- The variables visited are those downstream of the worklist. -/
theorem Visits.mem_iff {todo : OrderedSet VarId} {visited : List VarId} (hv : s.Visits todo visited) :
    w ∈ visited ↔ ∃ v ∈ todo, s.Reaches v w := by
  -- along the visits: what is downstream of the oldest variable is that variable and what is
  -- downstream of those that it feeds
  induction hv with
  | stop hpop =>
    refine iff_of_false List.not_mem_nil ?_
    rintro ⟨v, hv, -⟩
    exact OrderedSet.not_mem_of_pop? hpop hv
  | @visit todo rest u visited hpop _ ih =>
    have hmem : ∀ {v}, v ∈ todo ↔ v = u ∨ v ∈ rest := OrderedSet.mem_of_pop? hpop
    rw [List.mem_cons, ih]
    constructor
    · rintro (rfl | ⟨v, hv, hreach⟩)
      · exact ⟨_, hmem.2 (.inl rfl), .refl⟩
      · rcases OrderedSet.mem_insertAll.1 hv with hv | hv
        · exact ⟨v, hmem.2 (.inr hv), hreach⟩
        · exact ⟨u, hmem.2 (.inl rfl), .head (h.mem_fedBy.1 hv) hreach⟩
    · rintro ⟨v, hv, hreach⟩
      rcases hmem.1 hv with rfl | hv
      · rcases ReflTransGen.cases_head hreach with rfl | ⟨t, hfeeds, hreach⟩
        · exact .inl rfl
        · exact .inr ⟨t, OrderedSet.mem_insertAll.2 (.inr (h.mem_fedBy.2 hfeeds)), hreach⟩
      · exact .inr ⟨v, OrderedSet.mem_insertAll.2 (.inl hv), hreach⟩

end WellFormed

/-- The way of the walk is a matter of what variables are incident to and of the methods in force. -/
theorem Visits.congr {todo : OrderedSet VarId} {visited : List VarId} (hv : s.Visits todo visited)
    (hincident : s'.incidentAt = s.incidentAt) (houtput : s'.outputOf? = s.outputOf?) :
    s'.Visits todo visited := by
  induction hv with
  | stop hpop => exact .stop hpop
  | @visit todo rest u visited hpop _ ih =>
    have hfed : s'.fedBy u = s.fedBy u := by rw [fedBy, fedBy, hincident, houtput]
    exact .visit hpop (hfed ▸ ih)

/-! ## Ranking -/

/-- How strongly a constraint insists; one that does not exist does not insist. -/
def strengthAt (s : Solver W T) (c : ConstraintId) : Strength :=
  ((s.constraintAt? c).map fun node => node.definition.strength).getD .weakest

/-- Ranking puts the stronger constraints first and keeps the order of equals. -/
theorem pairwise_rank {r : ConstraintId → ConstraintId → Prop} {cs : List ConstraintId}
    (hcs : cs.Pairwise r) :
    (s.rank cs).Pairwise fun j k => s.strengthAt k < s.strengthAt j ∨
      s.strengthAt k = s.strengthAt j ∧ r j k := by
  have hstrength : ∀ {a : Strength} {k : ConstraintId},
      (s.constraintAt? k).any (·.definition.strength = a) = true → s.strengthAt k = a := by
    intro a k hk
    obtain ⟨node, hnode, ha⟩ := (Option.any_eq_true _ _).1 hk
    rw [strengthAt, hnode]
    exact of_decide_eq_true ha
  have hall : Strength.all.reverse.Pairwise fun a b => b < a := by decide
  -- there is one round for each strength, the strongest first
  refine List.pairwise_flatMap.2 ⟨fun a _ => ?_, hall.imp fun {a b} hlt j hj k hk => ?_⟩
  · refine (hcs.filter _).imp_of_mem fun {j k} hj hk hr => .inr ⟨?_, hr⟩
    rw [hstrength (List.mem_filter.1 hj).2, hstrength (List.mem_filter.1 hk).2]
  · rw [hstrength (List.mem_filter.1 hj).2, hstrength (List.mem_filter.1 hk).2]
    exact .inl hlt

/-- Ranking lists nothing twice. -/
theorem nodup_rank {cs : List ConstraintId} (hcs : cs.Nodup) : (s.rank cs).Nodup := by
  refine (s.pairwise_rank hcs).imp fun {j k} hjk => ?_
  rintro rfl
  rcases hjk with hlt | ⟨-, hne⟩
  · exact Nat.lt_irrefl _ hlt
  · exact hne rfl

/-- Ranks depend on the constraints only. -/
theorem rank_congr {cs : List ConstraintId} (hc : ∀ c, s'.constraintAt? c = s.constraintAt? c) :
    s'.rank cs = s.rank cs := by
  unfold rank
  simp only [hc]

/-- The list has the idle constraints that mention the variable or one downstream of it. The stronger come
first, and among equals those that a walk from the variable is the first to find. -/
structure Strands (s : Solver W T) (v : VarId) (cs : List ConstraintId) : Prop where
  /-- No constraint is listed twice. -/
  nodup : cs.Nodup
  /-- The members are the idle constraints that mention a variable downstream. -/
  mem_iff : ∀ k, k ∈ cs ↔ s.Idle k ∧ ∃ w, s.Reaches v w ∧ s.Mentions k w
  /-- What stands earlier is stronger, or as strong and found earlier. -/
  ordered : ∃ visited, s.Visits (.singleton v) visited ∧ cs.Pairwise fun j k =>
    s.strengthAt k < s.strengthAt j ∨ s.strengthAt k = s.strengthAt j ∧
      (visited.flatMap s.strandedAt).idxOf j < (visited.flatMap s.strandedAt).idxOf k

/-- To rank what was found on a walk is to list what is stranded. -/
theorem Visits.strands (h : s.WellFormed) {visited : List VarId}
    (hv : s.Visits (.singleton v) visited) :
    s.Strands v (s.rank (OrderedSet.ofList (visited.flatMap s.strandedAt)).toList) where
  nodup := nodup_rank (OrderedSet.ofList _).nodup
  mem_iff k := by
    rw [mem_rank, ← OrderedSet.mem_def, OrderedSet.mem_ofList, List.mem_flatMap]
    simp only [h.mem_strandedAt, hv.mem_iff h, OrderedSet.mem_singleton, exists_eq_left]
    constructor
    · rintro ⟨⟨w, hreach, hidle, hmentions⟩, -⟩
      exact ⟨hidle, w, hreach, hmentions⟩
    · rintro ⟨hidle, w, hreach, hmentions⟩
      exact ⟨⟨w, hreach, hidle, hmentions⟩, hidle.live⟩
  ordered := ⟨visited, hv, pairwise_rank (OrderedSet.inFirstMention_ofList _).ordered⟩

/-- What is stranded downstream of a variable is a matter of what variables are incident to and of the
constraints. -/
theorem Strands.congr {cs : List ConstraintId} (h : s.Strands v cs)
    (hincident : s'.incidentAt = s.incidentAt) (hc : ∀ c, s'.constraintAt? c = s.constraintAt? c) :
    s'.Strands v cs where
  nodup := h.nodup
  mem_iff k := by
    -- edges, strengths and what is stranded are all read off the constraints and the incidences
    have hfeeds : s'.Feeds = s.Feeds := by
      funext u w
      exact propext (exists_congr fun _ => reads_congr hc)
    unfold Idle Mentions Reaches
    rw [hfeeds, hc]
    exact h.mem_iff k
  ordered := by
    have hstrength : s'.strengthAt = s.strengthAt := by
      funext k
      rw [strengthAt, strengthAt, hc]
    have hstranded : s'.strandedAt = s.strandedAt := by
      funext u
      rw [strandedAt, strandedAt, hincident, isUnenforced_congr hc]
    obtain ⟨visited, hv, hcs⟩ := h.ordered
    rw [hstrength, hstranded]
    exact ⟨visited, hv.congr hincident (outputOf?_congr hc), hcs⟩

/-! ## What is settled -/

/-- The constraint computes its output from the variable, in one step or more. -/
def Fed (s : Solver W T) (v : VarId) (c : ConstraintId) : Prop :=
  ∃ w, s.Determines c w ∧ TransGen s.Feeds v w

/-- Asking less of a settled constraint. -/
theorem Settled.imp {cells cells' : Prop} (h : s.Settled cells k) (hcells : cells' → cells) :
    s.Settled cells' k := by
  intro node method hnode hmethod
  obtain ⟨hwalk, hconstant, hcell⟩ := h hnode hmethod
  exact ⟨hwalk, hconstant, fun hc => hcell (hcells hc)⟩

end Solver

namespace SolveM

open Relation

variable {W T : Type} {m m₁ : Machine W T} {cells own : Prop} {k : ConstraintId}
  {node : Constraint W T} {method : Method W T} {output : VarId} {fuel : Nat}

/-! ## What the walk comes to -/

/-- The walk finds what is stranded at the variables that it visits, in this order. -/
theorem ensures_strandedFrom_visits {s : Solver W T} {todo : OrderedSet VarId}
    {found : OrderedSet ConstraintId} (h : s.WellFormed) (hr : s.Repaints m.solver) :
    Ensures (strandedFrom fuel todo found) m fun r _ => ∀ found', r = .ok found' →
      ∃ visited, s.Visits todo visited ∧
        found' = found.insertAll (visited.flatMap s.strandedAt) := by
  -- by induction on the fuel; all graphs on the way have the edges of the one at the start
  induction fuel generalizing m todo found with
  | zero => exact ensures_unfinished
  | succ fuel ih =>
    unfold strandedFrom
    cases hpop : todo.pop? with
    | none =>
      refine (ensures_pure _).2 fun found' he => ⟨[], .stop hpop, ?_⟩
      exact (Except.ok.inj he).symm
    | some p =>
      obtain ⟨v, rest⟩ := p
      simp only
      rw [ensures_bind, ensures_getVariable, Solver.lookupVariable]
      cases hx : m.solver.variableAt? v with
      | none => simp
      | some x =>
        simp only [ensures_bind, ensures_ask, id]
        refine ((refresh_repaints _ rest m).and (ensures_refresh_inserts _ rest)).mono ?_
        rintro r m₁ ⟨hr₁, hinserts⟩
        cases r with
        | error e => simp
        | ok todo' =>
          -- the repainted graph has the incidences, outputs and consumers of the one at the start
          have hstranded : x.incident.toList.filter m.solver.isUnenforced = s.strandedAt v := by
            rw [Solver.strandedAt, ← hr.incidentAt, Solver.incidentAt_eq hx,
              Solver.isUnenforced_congr hr.constraintAt]
          have htodo : todo' = rest.insertAll (s.fedBy v) := by
            obtain ⟨y, hy, hcons⟩ := hr.consumers_eq hx
            rw [hinserts todo' rfl, hcons, Solver.outputOf?_congr hr.constraintAt,
              h.filterMap_consumers hy]
          refine (ih (Solver.Repaints.transitive.trans hr hr₁)).mono fun r _ hvisits found' he => ?_
          obtain ⟨visited, hv, rfl⟩ := hvisits found' he
          refine ⟨v :: visited, .visit hpop (htodo ▸ hv), ?_⟩
          rw [hstranded, List.flatMap_cons, OrderedSet.insertAll, OrderedSet.insertAll,
            OrderedSet.insertAll, List.foldl_append]

/-- What vacating a variable comes to, when it returns: it gives what is stranded, and leaves every
constraint settled. The cells are what the methods give where the output is computed from the vacated
variable, and everywhere if they were before. -/
theorem Vacated.ensures_vacate (hv : Vacated own m.solver output)
    (hlt : m.solver.passes < 2 ^ 64) :
    Ensures (vacate fuel output) m fun r m' => m'.solver.WellFormed ∧
      (∃ cs, r = .ok cs ∧ m.solver.Strands output cs) ∧
      ∀ k, m'.solver.Settled (own ∨ m.solver.Fed output k) k := by
  obtain ⟨x, hx⟩ := hv.live
  obtain ⟨s, c, node, hwf, hd, hout, hp, hmend⟩ := hv
  have hdetached := hd.released hout
  have h := hwf.detached hdetached
  unfold vacate
  rw [ensures_bind]
  refine .changeVariable hx ?_
  simp only
  rw [ensures_bind]
  refine ((ensures_strandedFrom_renews
    (m := ⟨m.solver.modifyVariable output Variable.release, m.world, m.journal⟩)
    (Solver.settled_renewable fun k => own ∨ m.solver.Fed output k) hwf hdetached hout
    fun k hk => ?_).and (ensures_strandedFrom_visits h (Solver.Repaints.transitive.refl _))).mono ?_
  · by_cases hfed : m.solver.Fed output k
    · -- the edges that are left were there before
      obtain ⟨o, hdet, hpath⟩ := hfed
      refine ⟨output, o, hout, ((hdetached.determines_iff k o).1 hdet).2, ?_⟩
      exact ReflTransGen.mono (fun v w ⟨j, hj⟩ => ⟨j, (hdetached.reads_iff.1 hj).2⟩) _ _
        hpath.to_reflTransGen
    · exact (hmend (hp ▸ hlt)).pending k fun hk' => hk (hk'.imp fun hc => hc.resolve_right hfed)
  · rintro r m₁ ⟨⟨hw, ⟨found, rfl, _⟩, hsettled, _⟩, hvisits⟩
    obtain ⟨visited, hvisited, rfl⟩ := hvisits found rfl
    have hincident := m.solver.incidentAt_modifyVariable (v := output) (f := Variable.release)
      fun _ => rfl
    have hstrands := (hvisited.strands h).congr hincident.symm fun _ => rfl
    rw [← Solver.rank_congr hw.constraintAt] at hstrands
    exact (ensures_ask _).2 ⟨h.repaints hw.toRepaints, ⟨_, rfl, hstrands⟩, hsettled⟩

/-- Vacating a variable returns where the methods in force form no cycle. -/
theorem Vacated.vacate_returns (hv : Vacated own m.solver output)
    (hacyclic : ∀ v, ¬ TransGen m.solver.Feeds v v) :
    Returns (fun fuel => vacate fuel output) m fun _ _ => True := by
  obtain ⟨x, hx⟩ := hv.live
  obtain ⟨s, c, node, hwf, hd, hout, _⟩ := hv
  have h := hwf.detached (hd.released hout)
  unfold vacate
  refine .after (.changeVariable _ _) (.changeVariable hx ?_)
  simp only
  refine .bind (strandedFrom_returns
    (m := ⟨m.solver.modifyVariable output Variable.release, m.world, m.journal⟩) _ _
    (Solver.wellFounded_next ?_)) (fun _ _ _ => trivial)
    fun _ _ _ => .of_total (.ask _) ((ensures_ask _).2 trivial)
  -- a cycle of the walk would be one of the methods in force
  rintro ⟨v, hcycle⟩
  exact hacyclic v (TransGen.mono (fun _ _ hnext => h.feeds_of_next hnext) _ _ hcycle)

/-- What vacating a variable comes to with some fuel, it comes to with more. -/
theorem exec_vacate_of_le {steps : Nat} {r : Except SolveError (List ConstraintId) × Machine W T}
    (hr : exec (vacate fuel output) m = some r) (hle : fuel ≤ steps) :
    exec (vacate steps output) m = some r := by
  obtain ⟨⟨r₁, m₁⟩, hrun⟩ := Total.changeVariable (W := W) (T := T) output Variable.release m
  unfold vacate at hr ⊢
  rw [exec_bind, hrun] at hr ⊢
  cases r₁ with
  -- a variable that does not exist fails with any fuel
  | error e => exact hr
  | ok _ =>
    simp only at hr ⊢
    rw [exec_bind] at hr ⊢
    cases hwalk : exec (strandedFrom fuel (.singleton output) .empty) m₁ with
    | none =>
      rw [hwalk] at hr
      cases hr
    | some p =>
      rw [exec_of_cutShort (fun fuel => strandedFrom_cutShort fuel _ _) hwalk hle]
      rw [hwalk] at hr
      exact hr

/-- Disable a constraint and let it depart. Gives the output that it had. -/
def takeOut (c : ConstraintId) : SolveM W T (Option VarId) :=
  (do
    changeConstraint c fun x => { x with enabled := false }
    update fun s => { s with changes := s.changes + 1 }
    count fun x => { x with disables := x.disables + 1 }
    note (.disabling c)) >>= fun _ => depart c

/-- After this, disabling the constraint vacates its output. -/
theorem makes_vacate_of_takeOut {c : ConstraintId} (hnode : m.solver.constraintAt? c = some node)
    (hen : node.enabled = true) (henf : node.isEnforcing = true)
    (hrun : exec (takeOut c) m = some (.ok (some output), m₁)) :
    ReflTransGen Makes ⟨fuel, .call (.disable c), m⟩ ⟨fuel, .vacate output, m₁⟩ := by
  obtain ⟨_, m', hoff, hdepart⟩ := exec_bind_eq_ok.1 hrun
  exact .tail (.tail (.single .callDisable) (.disableRemove hnode hen henf hoff)) (.vacate hdepart)

/-- Recalculating the constraint succeeds and gives every variable the walk strength and the constancy
that it has and, if `cells` holds, the cell that it has. -/
def UpToDate (cells : Prop) (m : Machine W T) (c : ConstraintId) : Prop :=
  ∃ m', exec (recalculate c) m = some (.ok (), m') ∧ ∀ v,
    m'.solver.walkAt v = m.solver.walkAt v ∧ m'.solver.constantAt v = m.solver.constantAt v ∧
      (cells → m'.solver.cellAt v = m.solver.cellAt v)

/-- Recalculating a settled constraint comes to nothing, if its method is a function of its inputs as far
as cells are looked at. -/
theorem upToDate_of_settled (h : m.solver.Grounded) (hsettled : m.solver.Settled cells k)
    (hnode : m.solver.constraintAt? k = some node) (hmethod : node.enforcingMethod? = some method)
    (hpure : cells → ∀ f, method.action = .compute f → f.Pure) : UpToDate cells m k := by
  obtain ⟨hwalk, hconstant, hcell⟩ := hsettled hnode hmethod
  obtain ⟨⟨r, m₁⟩, hrun⟩ := total_recalculate k m
  obtain ⟨rfl, hvars, -, -⟩ :=
    ensures_recalculate_stores h hnode hmethod hwalk.symm hconstant.symm rfl r m₁ hrun
  refine ⟨m₁, hrun, fun v => ?_⟩
  -- a recalculation stores in the output only
  by_cases hv : v = method.output
  · subst hv
    obtain ⟨i, _, hget⟩ := Option.bind_eq_some_iff.1 hmethod
    obtain ⟨x, hx⟩ := Option.isSome_iff_exists.1
      (h.mentioned hnode _ (Definition.output_mem_vars (Definition.mem_of_method? hget)))
    have hx₁ := hvars method.output
    rw [hx, Option.map_some, if_pos rfl] at hx₁
    refine ⟨Solver.walkAt_eq hx₁, Solver.constantAt_eq hx₁, fun hc => ?_⟩
    rw [Solver.cellAt_eq hx₁, ← Solver.cellAt_eq hx]
    simp only
    split
    · next hconst => exact ((hcell hc hconst).store (hpure hc) m.world).symm
    · rfl
  · have hsame := hvars v
    simp only [if_neg hv, Option.map_id'] at hsame
    obtain ⟨hw, hco, hce⟩ := Solver.samePaint_of_eq hsame
    exact ⟨hw, hco, fun _ => hce⟩

end SolveM

namespace Solver

variable {W T : Type} {s : Solver W T}

/-- Whether every method in force leads to a variable in a later slot. -/
def ascends (s : Solver W T) : Bool :=
  s.constraints.toList.all fun p => p.2.output?.all fun w =>
    p.2.definition.vars.all fun v => v = w || v.index < w.index

/-- If the test succeeds, no variable is computed from itself. -/
theorem not_transGen_of_ascends (h : s.ascends = true) (v : VarId) : ¬ TransGen s.Feeds v v := by
  simp only [ascends, List.all_eq_true, Option.all_eq_true, Bool.or_eq_true, decide_eq_true_eq] at h
  refine not_transGen_of_index_lt ?_ v
  rintro v w ⟨k, n, hn, hout, hv, hne⟩
  exact (h (k, n) (Arena.mem_toList.2 hn) w hout v hv).resolve_left hne

end Solver

namespace Run

open Relation
open SolveM (exec Makes UpToDate)

variable {W T : Type} {own : Prop} {config : Config} {plans : List (Plan × Nat)}
  {m : Machine W T}

/-- A variable that is held, a copy of it, and three constraints that wait for the two. -/
def heldAndCopied : List (Call Unit Nat) :=
  [.newVariables [1, 2],
    .constrain (.stay .strong ⟨0, 0⟩),
    .constrain (.relation .strong ⟨1, 0⟩ [] [⟨0, 0⟩] .first),
    .constrain (.stay .weak ⟨1, 0⟩),
    .constrain (.stay .weak ⟨0, 0⟩),
    .constrain (.stay .medium ⟨1, 0⟩)]

end Run

end DeltaBlue
