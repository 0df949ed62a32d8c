import DeltaBlue.Proofs.Forest
import DeltaBlue.Proofs.Holding

/-!
# Idle constraints are blocked where outputs are apart

A constraint is blocked if all its outputs are held at least as strongly as it insists. Outputs are
apart if no two of one constraint are linked over the other constraints of the graph. They are so in
a forest, and where no constraint has two outputs, whatever cycles the graph has otherwise.

A pass takes one idle constraint after the other, and everything that it has claimed leads to the
output that the one whose turn it is has lost. If outputs are apart this is the only one of its
outputs that is claimed (`Solver.Lost`), and it is now held at least as strongly as the constraint
itself held it. So if the constraint finds no method among its other outputs it is blocked. If it
finds one, nothing is weakened, and what was blocked stays blocked.

When a constraint leaves the graph, only what is downstream of its output is weakened, and the idle
constraints there are those that the walk finds.
-/

namespace DeltaBlue

namespace Solver

open Relation

variable {W T : Type}

/-- All outputs of the constraint are held at least as strongly as it insists. -/
def Blocked (s : Solver W T) (c : ConstraintId) : Prop :=
  ∃ node, s.constraintAt? c = some node ∧
    ∀ m ∈ node.definition.methods, node.definition.strength ≤ s.walkAt m.output

/-- Idle constraints that are not on the list are blocked. -/
def IdleBlocked (s : Solver W T) (todo : List ConstraintId) : Prop :=
  ∀ k, s.Idle k → k ∈ todo ∨ s.Blocked k

/-- No two outputs of a constraint with the property `S` are linked over the other ones. -/
def OutputsApart (s : Solver W T) (S : ConstraintId → Prop) : Prop :=
  ∀ k node, S k → s.constraintAt? k = some node →
    ∀ m ∈ node.definition.methods, ∀ m' ∈ node.definition.methods,
      s.Linked (fun j => S j ∧ j ≠ k) m.output m'.output → m.output = m'.output

/-- The outputs of the enabled constraints are apart. -/
def Apart (s : Solver W T) : Prop := s.OutputsApart s.Enabled

/-- The outputs of the enabled constraints and of the given one are apart. -/
def ApartWith (s : Solver W T) (c : ConstraintId) : Prop :=
  s.OutputsApart fun k => k = c ∨ s.Enabled k

/-- Only one output of the constraint is claimed at most, and this is held at least as strongly as the
constraint would hold it. -/
def Lost (s : Solver W T) (mark : Mark) (d : Definition W T) : Prop :=
  ∀ m ∈ d.methods, s.Claimed mark m.output →
    (∀ m' ∈ d.methods, s.Claimed mark m'.output → m'.output = m.output) ∧
    d.walkFrom s.walkAt m.output ≤ s.walkAt m.output

/-- Outputs are apart, and idle constraints that are not on the list are blocked. -/
structure Still (s : Solver W T) (todo : List ConstraintId) : Prop where
  /-- Outputs are apart. -/
  apart : s.Apart
  /-- Idle constraints are blocked. -/
  blocked : s.IdleBlocked todo

/-- `c` is about to be enforced in a pass over a graph whose outputs are apart. -/
structure Awaiting (cells : Prop) (s : Solver W T) (mark : Mark) (c : ConstraintId)
    (todo : List ConstraintId) : Prop extends InPass cells s mark c, Still s (c :: todo) where
  /-- Only the output that the constraint has lost is claimed of its outputs. -/
  lost : ∀ {node}, s.constraintAt? c = some node → s.Lost mark node.definition

variable {s s₁ s₂ s' : Solver W T} {S S' : ConstraintId → Prop} {cells : Prop} {c k : ConstraintId}
  {node : Constraint W T} {mark : Mark} {todo : List ConstraintId}

/-! ## Blocked constraints -/

/-- A blocked constraint stays blocked if its outputs are not weakened. -/
theorem Blocked.of_le (h : s.Blocked k)
    (hdef : ∀ node, s.constraintAt? k = some node →
      ∃ node', s'.constraintAt? k = some node' ∧ node'.definition = node.definition)
    (hle : ∀ v, s.Mentions k v → s.walkAt v ≤ s'.walkAt v) : s'.Blocked k := by
  obtain ⟨node, hnode, hheld⟩ := h
  obtain ⟨node', hnode', he⟩ := hdef node hnode
  refine ⟨node', hnode', fun m hm => ?_⟩
  rw [he] at hm ⊢
  exact Nat.le_trans (hheld m hm) (hle _ ⟨node, hnode, Definition.output_mem_vars hm⟩)

/-- Whether a constraint is blocked depends on the constraints and the walk strengths. -/
theorem Blocked.congr (h : s.Blocked k) (hc : ∀ k, s'.constraintAt? k = s.constraintAt? k)
    (hv : ∀ v, s'.walkAt v = s.walkAt v) : s'.Blocked k :=
  h.of_le (fun node hnode => ⟨node, (hc k).trans hnode, rfl⟩)
    fun v _ => Nat.le_of_eq (congrArg Strength.rank (hv v).symm)

/-- Which constraints are idle depends on the constraints only. -/
theorem idle_congr (h : ∀ c, s'.constraintAt? c = s.constraintAt? c) : s'.Idle k ↔ s.Idle k := by
  unfold Idle
  rw [h]

/-- If constraints and walk strengths are the same, the same idle constraints are blocked. -/
theorem IdleBlocked.congr (h : s.IdleBlocked todo)
    (hc : ∀ k, s'.constraintAt? k = s.constraintAt? k) (hv : ∀ v, s'.walkAt v = s.walkAt v) :
    s'.IdleBlocked todo :=
  fun k hk => (h k ((idle_congr hc).1 hk)).imp_right (·.congr hc hv)

/-- What is not idle need not be on the list. -/
theorem IdleBlocked.drop (h : s.IdleBlocked (c :: todo)) (hidle : ¬ s.Idle c) :
    s.IdleBlocked todo :=
  fun k hk => (h k hk).imp_left fun hmem =>
    (List.mem_cons.1 hmem).resolve_left fun (e : k = c) => hidle (e ▸ hk)

/-- What is blocked need not be on the list. -/
theorem IdleBlocked.drop_blocked (h : s.IdleBlocked (c :: todo)) (hb : s.Blocked c) :
    s.IdleBlocked todo := by
  intro k hk
  rcases h k hk with hmem | hblocked
  · exact (List.mem_cons.1 hmem).symm.imp_right fun (e : k = c) => e ▸ hb
  · exact .inr hblocked

/-- Solvers that are alike hold variables equally. -/
theorem Alike.walkAt (h : s.Alike s') (v : VarId) : s'.walkAt v = s.walkAt v :=
  (samePaint_of_eq (h.variableAt v)).1

/-- A mark does not change how strongly a variable is held. -/
theorem walkAt_marked (u v : VarId) :
    (s.modifyVariable v fun x => { x with mark := mark }).walkAt u = s.walkAt u :=
  (samePaint_of_map (variableAt?_marked v mark u) fun _ => ⟨rfl, rfl, rfl⟩).1

/-! ## Outputs that are apart -/

/-- Outputs stay apart if no constraint is added. -/
theorem OutputsApart.within (h : s.OutputsApart S) (hw : s.Within s' S S') :
    s'.OutputsApart S' := by
  intro k node' hk hnode' m hm m' hm' hlinked
  obtain ⟨hS, node, hnode, hdef⟩ := hw k node' hk hnode'
  rw [hdef] at hm hm'
  exact h k node hS hnode m hm m' hm' (hw.linked hlinked)

/-- The outputs of the enabled constraints stay apart if none is added. -/
theorem Apart.within (h : s.Apart) (hw : s.Within s' s.Enabled s'.Enabled) : s'.Apart :=
  OutputsApart.within h hw

/-- When a constraint enters the graph, its outputs are among those that are apart. -/
theorem ApartWith.entered (h : s.ApartWith c) (he : Entered s s' c node) : s'.Apart :=
  OutputsApart.within h he.within

/-- Outputs are apart in a forest. -/
theorem outputsApart_of_isAcyclic (h : (s.incidence S).IsAcyclic) : s.OutputsApart S :=
  fun _ node hk hnode _ hm _ hm' =>
    eq_of_linked h hk ⟨node, hnode, Definition.output_mem_vars hm⟩
      ⟨node, hnode, Definition.output_mem_vars hm'⟩

/-- The outputs of a forest are apart. -/
theorem Forest.apart (h : s.Forest) : s.Apart := outputsApart_of_isAcyclic h

/-- The outputs of a graph that is a forest with a constraint are apart with it. -/
theorem ForestWith.apartWith (h : s.ForestWith c) : s.ApartWith c := outputsApart_of_isAcyclic h

/-- Of the outputs of an idle constraint none is downstream of another. -/
theorem Apart.eq_of_idle (ha : s.Apart) (h : s.WellFormed) (hidle : s.Idle k)
    (hnode : s.constraintAt? k = some node) {m m' : Method W T} (hm : m ∈ node.definition.methods)
    (hm' : m' ∈ node.definition.methods) (hreach : s.Reaches m.output m'.output) :
    m.output = m'.output := by
  obtain ⟨n, hn, hen, hnone⟩ := hidle
  refine ha k node ⟨n, hn, hen⟩ hnode m hm m' hm' (linked_of_reaches h (fun o ho => ?_) hreach)
  exact absurd ho (not_determines hn hnone o)

/-- Whether the enabled constraints and the given one have one method each. -/
def isOneWayWith (s : Solver W T) (c : ConstraintId) : Bool :=
  s.constraints.toList.all fun p =>
    !(p.1 = c || p.2.enabled) || p.2.definition.methods.length = 1

/-- The outputs of constraints with one method each are apart, whatever cycles there are. -/
theorem apartWith_of_isOneWayWith (h : s.isOneWayWith c = true) : s.ApartWith c := by
  simp only [isOneWayWith, List.all_eq_true] at h
  intro k node hk hnode m hm m' hm' _
  have hpart : (k = c || node.enabled) = true := by
    rw [Bool.or_eq_true, decide_eq_true_eq]
    refine hk.imp_right ?_
    rintro ⟨n, hn, hen⟩
    obtain rfl := Option.some.inj (hnode.symm.trans hn)
    exact hen
  have hone := h (k, node) (Arena.mem_toList.2 hnode)
  simp only [hpart, Bool.not_true, Bool.false_or, decide_eq_true_eq] at hone
  obtain ⟨method, hmethods⟩ := List.length_eq_one_iff.1 hone
  rw [hmethods, List.mem_singleton] at hm hm'
  rw [hm, hm']

/-! ## A constraint whose turn it is -/

/-- If the unclaimed outputs of the constraint are held at some strength at least, at which it insists,
then so are all its outputs. -/
theorem Lost.held (h : s.WellFormed) (hnode : s.constraintAt? c = some node)
    (hlost : s.Lost mark node.definition) {a : Strength}
    (hheld : s.HeldBy mark node.definition.methods a) (hle : a ≤ node.definition.strength) :
    ∀ m ∈ node.definition.methods, a ≤ s.walkAt m.output := by
  have hlive : ∀ m ∈ node.definition.methods, ∃ x, s.variableAt? m.output = some x := fun m hm =>
    Option.isSome_iff_exists.1 (h.mentioned hnode _ (Definition.output_mem_vars hm))
  intro m hm
  obtain ⟨x, hx⟩ := hlive m hm
  by_cases hmark : x.mark = mark
  · -- the claimed output is held as strongly as the others make the constraint hold it
    obtain ⟨hone, hwalk⟩ := hlost m hm ⟨x, hx, hmark⟩
    refine Nat.le_trans (Definition.le_walkFrom.2 ⟨hle, fun m' hm' hne => ?_⟩) hwalk
    obtain ⟨x', hx'⟩ := hlive m' hm'
    rw [walkAt_eq hx']
    exact hheld m' hm' x' hx' fun hmark' => hne (hone m' hm' ⟨x', hx', hmark'⟩)
  · rw [walkAt_eq hx]
    exact hheld m hm x hx hmark

/-- A constraint that finds no method is blocked. -/
theorem Awaiting.blocked_of_held (ha : s.Awaiting cells mark c todo) (h : s.WellFormed)
    (hnode : s.constraintAt? c = some node)
    (hheld : s.HeldBy mark node.definition.methods node.definition.strength) : s.Blocked c :=
  ⟨node, hnode, (ha.lost hnode).held h hnode hheld (Nat.le_refl _)⟩

/-- When the constraint is left without a method, it is blocked like the other idle ones. -/
theorem Awaiting.left (ha : s.Awaiting cells mark c todo) (h : s.WellFormed)
    (hnode : s.constraintAt? c = some node)
    (hheld : s.HeldBy mark node.definition.methods node.definition.strength)
    (halike : s.Alike s') : s'.Still todo where
  apart := ha.apart.within (within_of_constraintAt halike.constraintAt)
  blocked := (ha.blocked.drop_blocked (ha.blocked_of_held h hnode hheld)).congr
    halike.constraintAt halike.walkAt

/-! ## A constraint that has found a method -/

section Installed

variable {i : Nat} {m : Method W T} {x : Variable T}
  (ha : s.Awaiting cells mark c todo) (h : s.WellFormed)
  (hi : Installed s s₁ mark c node i m x)
include ha h hi

/-- No output of the constraint is held more weakly than the one that was taken. -/
theorem Awaiting.held_of_installed :
    ∀ m' ∈ node.definition.methods, x.walkStrength ≤ s.walkAt m'.output :=
  (ha.lost hi.before.1).held h hi.before.1 hi.weakest (Nat.le_of_lt hi.output.2.2)

variable (hr : s₁.Repaints s₂) (hrest₂ : s₂.Rest cells)
include hr hrest₂

/-- Nothing is weakened, so only a constraint that was displaced may be idle without being blocked. -/
theorem Awaiting.idleBlocked {todo' : List ConstraintId}
    (hk : ∀ j, x.determinedBy = some j ∨ j ∈ todo → j ∈ todo') : s₂.IdleBlocked todo' := by
  rintro j ⟨n', hn', hen, hnone⟩
  rw [hr.constraintAt] at hn'
  -- the constraint has a method now, the displaced one is on the list, the others are as before
  obtain ⟨_, rfl⟩ | ⟨_, hdis, _⟩ | ⟨hjc, hdis, hn'⟩ := hi.found hn'
  · cases hnone
  · exact .inl (hk j (.inl hdis))
  rcases ha.blocked j ⟨n', hn', hen, hnone⟩ with hmem | hb
  · exact .inl (hk j (.inr ((List.mem_cons.1 hmem).resolve_left hjc)))
  · refine .inr (hb.of_le (fun n hn => ⟨n, ?_, rfl⟩) fun v _ =>
      hi.walkAt_le h ha.toRest hr hrest₂ (ha.held_of_installed h hi) v)
    rw [hr.constraintAt, hi.constraintAt, if_neg hjc, if_neg hdis, hn]

/-- A constraint that is displaced held the output that it has lost no more weakly than it would now. -/
theorem Awaiting.walkFrom_le (hk : x.determinedBy = some k) {n' : Constraint W T}
    (hn' : s₂.constraintAt? k = some n') :
    n'.definition.walkFrom s₂.walkAt m.output ≤ x.walkStrength := by
  obtain ⟨n, hn, hout⟩ := (h.determined hi.output.1 k).1 hk
  obtain ⟨_, lost, _, hlost, he⟩ := Constraint.output?_eq_some_iff.1 hout
  have hmem := Definition.mem_of_method? hlost
  have hdef := hi.definition_eq hr hn hn'
  have hn₁ : s₁.constraintAt? k = some n' := (hr.constraintAt k).symm.trans hn'
  have hold : x.walkStrength = n'.definition.walkFrom s.walkAt m.output := by
    rw [hdef, ← walkAt_eq hi.output.1, ha.walkAt_of_output hn hout]
  rw [hold]
  -- its other outputs are not downstream of the one that was lost, and are held as before
  refine Definition.walkFrom_mono fun m' hm' hne => Nat.le_of_eq (congrArg Strength.rank ?_)
  refine hi.walkAt_of_not_reaches h ha.toRest hr hrest₂ (ha.held_of_installed h hi)
    fun hreach => hne ?_
  rw [← he] at hreach ⊢
  exact ((ha.apart.within hi.within).eq_of_idle (h.installed hi) (hi.displaced_idle h hk) hn₁
    (hdef ▸ hmem) hm' hreach).symm

/-- A constraint that is displaced is about to be enforced in the same pass. -/
theorem Awaiting.displaced (hpasses : s₁.passes = s.passes) (hk : x.determinedBy = some k) :
    (s₂.modifyVariable m.output fun y => { y with mark := mark }).Awaiting cells mark k todo where
  toInPass := ha.toInPass.displaced hi h hpasses hr hrest₂ hk
  apart := (ha.apart.within hi.within).within (within_of_constraintAt hr.constraintAt)
  blocked := by
    refine (ha.idleBlocked h hi hr hrest₂ fun j hj => ?_).congr (fun _ => rfl)
      fun u => walkAt_marked u m.output
    exact List.mem_cons.2 (hj.imp_left fun hdis => Option.some.inj (hdis.symm.trans hk))
  lost := by
    intro n' hn' m' hm' hclaimed
    have hn₂ : s₂.constraintAt? k = some n' := hn'
    have hn₁ : s₁.constraintAt? k = some n' := (hr.constraintAt k).symm.trans hn₂
    obtain ⟨n, hn, hout⟩ := (h.determined hi.output.1 k).1 hk
    obtain ⟨_, lost, _, hlost, he⟩ := Constraint.output?_eq_some_iff.1 hout
    have hmem : lost ∈ n'.definition.methods :=
      hi.definition_eq hr hn hn₂ ▸ Definition.mem_of_method? hlost
    -- what is claimed leads to the output that was lost, and the other outputs do not
    have honly : ∀ m₀ ∈ n'.definition.methods, (s₂.modifyVariable m.output fun y =>
        { y with mark := mark }).Claimed mark m₀.output → m₀.output = m.output := by
      intro m₀ hm₀ hclaimed₀
      rcases (claimed_marked.1 hclaimed₀).2 with he₀ | hclaimed₀
      · exact he₀
      obtain ⟨w, hpath, hlast⟩ := ha.leads_output hi h (hr.claimed.1 hclaimed₀)
      rw [← he] at hlast ⊢
      refine (ha.apart.within hi.within).eq_of_idle (h.installed hi) (hi.displaced_idle h hk) hn₁
        hm₀ hmem ?_
      exact (ReflTransGen.mono (fun _ _ hstep => And.left hstep) _ _ hpath).tail hlast
    have hsame : (s₂.modifyVariable m.output fun y => { y with mark := mark }).walkAt =
        s₂.walkAt := funext fun v => walkAt_marked v m.output
    rw [honly m' hm' hclaimed, hsame]
    refine ⟨honly, Nat.le_trans (ha.walkFrom_le h hi hr hrest₂ hk hn₂) ?_⟩
    rw [← walkAt_eq hi.output.1]
    exact hi.walkAt_le h ha.toRest hr hrest₂ (ha.held_of_installed h hi) m.output

end Installed

/-! ## A constraint that leaves or enters the graph -/

/-- A constraint that is idle when another has left the graph was idle before. -/
theorem Detached.idle (hd : Detached s s' c node) (hk : s'.Idle k) : k ≠ c ∧ s.Idle k := by
  obtain ⟨n, hn, hen, hnone⟩ := hk
  obtain ⟨hkc, hn⟩ := hd.of_enabled hn hen
  exact ⟨hkc, n, hn, hen, hnone⟩

/-- When a constraint has left the graph, the idle constraints downstream of its output may be idle
without being blocked, and no others. -/
theorem IdleBlocked.vacated (hb : s.IdleBlocked [c]) (h : s.Sound cells)
    (hv : Vacated cells s s₁ s₂ c node todo) (hlt : s₂.passes < 2 ^ 64) : s₂.IdleBlocked todo := by
  have hrest := h.rest (hv.passes ▸ hlt)
  intro k hk
  have hidle := (idle_congr hv.repaints.constraintAt).1 hk
  obtain ⟨hkc, hold⟩ := hv.detached.idle hidle
  -- what the walk has not found mentions nothing downstream of the output, so nothing of it is
  -- weakened
  by_cases hin : k ∈ todo
  · exact .inl hin
  have hblocked : s.Blocked k :=
    (hb k hold).resolve_left fun hmem => hkc (List.mem_singleton.1 hmem)
  have hsame : ∀ {n}, s.constraintAt? k = some n → s₁.constraintAt? k = some n :=
    fun hn => (hv.detached.reset.constraintAt_ne hkc).trans hn
  refine .inr (hblocked.of_le (fun n hn => ⟨n, (hv.repaints.constraintAt k).trans (hsame hn), rfl⟩)
    fun v hmentions => hv.detached.walkAt_le h.toWellFormed hrest hv.repaints (hv.sound.rest hlt)
      fun a ha hreach => hin ?_)
  obtain ⟨n, hn, hmem⟩ := hmentions
  exact hv.finds hlt a ha v hreach k hidle ⟨n, hsame hn, hmem⟩

/-- A constraint that enters the graph may be idle without being blocked, and no other. -/
theorem IdleBlocked.entered (hb : s.IdleBlocked []) (he : Entered s s' c node) :
    s'.IdleBlocked [c] := by
  rintro k ⟨n, hn, hen, hnone⟩
  by_cases hkc : k = c
  · exact .inl (List.mem_singleton.2 hkc)
  have hsame := he.reset.constraintAt_ne hkc
  have hblocked := (hb k ⟨n, hsame.symm.trans hn, hen, hnone⟩).resolve_left List.not_mem_nil
  refine .inr (hblocked.of_le (fun n' hn' => ⟨n', hsame.trans hn', rfl⟩) fun v _ => ?_)
  exact Nat.le_of_eq (congrArg Strength.rank (he.walkAt_same v).symm)

/-- Changes beside the graph keep idle constraints blocked. -/
theorem IdleBlocked.aside (hb : s.IdleBlocked todo) (ha : s.Aside s') : s'.IdleBlocked todo := by
  rintro k ⟨n, hn, hen, hnone⟩
  have hn := (ha.constraintAt hen).1 hn
  refine (hb k ⟨n, hn, hen, hnone⟩).imp_right fun hblocked => hblocked.of_le ?_ ?_
  · intro n' hn'
    obtain rfl := Option.some.inj (hn.symm.trans hn')
    exact ⟨n, (ha.constraintAt hen).2 hn, rfl⟩
  · rintro v ⟨n', hn', hv⟩
    obtain rfl := Option.some.inj (hn.symm.trans hn')
    exact Nat.le_of_eq (congrArg Strength.rank (ha.flags hn hen v hv).1.symm)

/-- A solver without constraints has no idle ones. -/
theorem idleBlocked_empty (config : Config) : (empty config : Solver W T).IdleBlocked [] := by
  rintro k ⟨n, hn, _⟩
  simp at hn

end Solver

end DeltaBlue
