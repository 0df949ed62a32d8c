import Mathlib.Logic.Relation
import Mathlib.Tactic.ByContra
import DeltaBlue.Proofs.Structure

/-!
# The dependency graph

A method in force computes its output from the other variables of its constraint. `Feeds v w` says
that a constraint determines `w` and has `v` among its other variables; these are the edges that the
walks of propagation follow. A walk downstream of `v` ends on every branch if `v` is accessible
backwards along the edges (`Ends`), and the graph is `Acyclic` if this holds of all variables.

The three changes of the graph move edges in a simple way: installing a method replaces the edges
into its output, leaving the graph takes the edges of one constraint away, and entering it changes
none.
-/

namespace DeltaBlue

namespace Solver

open Relation

variable {W T : Type}

/-- `k` determines `w` and has `v` among its other variables. -/
def Reads (s : Solver W T) (k : ConstraintId) (v w : VarId) : Prop :=
  ∃ node, s.constraintAt? k = some node ∧ node.output? = some w ∧ v ∈ node.definition.vars ∧ v ≠ w

/-- The value of `w` is computed from that of `v`. -/
def Feeds (s : Solver W T) (v w : VarId) : Prop := ∃ k, s.Reads k v w

/-- The variable is downstream of another or the same. -/
abbrev Reaches (s : Solver W T) : VarId → VarId → Prop := ReflTransGen s.Feeds

/-- Every walk downstream of the variable ends. -/
abbrev Ends (s : Solver W T) (v : VarId) : Prop := Acc (fun w v => s.Feeds v w) v

/-- Every walk downstream ends. -/
def Acyclic (s : Solver W T) : Prop := ∀ v, s.Ends v

variable {s s' : Solver W T} {c k : ConstraintId} {node : Constraint W T} {v w u : VarId}

/-- Edges that all lead to later slots close no cycle. -/
theorem not_transGen_of_index_lt {r : VarId → VarId → Prop} (h : ∀ v w, r v w → v.index < w.index)
    (v : VarId) : ¬ TransGen r v v := by
  have hpath : ∀ {w}, TransGen r v w → v.index < w.index := by
    intro w hpath
    induction hpath with
    | single hstep => exact h _ _ hstep
    | tail _ hstep ih => exact Nat.lt_trans ih (h _ _ hstep)
  exact fun hcycle => Nat.lt_irrefl _ (hpath hcycle)

/-- What reads a variable to compute another determines the other. -/
theorem Reads.determines (h : s.Reads k v w) : s.Determines k w := by
  obtain ⟨node, hnode, hout, _⟩ := h
  exact ⟨node, hnode, hout⟩

/-- What is read feeds what is determined. -/
theorem Reads.feeds (h : s.Reads k v w) : s.Feeds v w := ⟨k, h⟩

/-- Where the constraints are the same, so are the edges. -/
theorem reads_congr (h : ∀ c, s'.constraintAt? c = s.constraintAt? c) :
    s'.Reads k v w ↔ s.Reads k v w := by
  unfold Reads
  rw [h]

/-- Repainting moves no edge. -/
theorem Repaints.feeds (h : s.Repaints s') : s'.Feeds = s.Feeds := by
  funext v w
  exact propext (exists_congr fun _ => reads_congr h.constraintAt)

/-- Repainting does not change which walks end. -/
theorem Repaints.ends (h : s.Repaints s') : s'.Ends v ↔ s.Ends v := by
  unfold Ends
  rw [h.feeds]

/-- Repainting does not change what is downstream of what. -/
theorem Repaints.reaches (h : s.Repaints s') : s'.Reaches = s.Reaches := by
  unfold Reaches
  rw [h.feeds]

/-- Where the constraints are the same, they determine the same variables. -/
theorem determines_congr (h : ∀ c, s'.constraintAt? c = s.constraintAt? c) :
    s'.Determines k w ↔ s.Determines k w := by
  unfold Determines
  rw [h]

/-- Repainting does not change what determines what. -/
theorem Repaints.determines (h : s.Repaints s') : s'.Determines k w ↔ s.Determines k w :=
  determines_congr h.constraintAt

/-- The consumers of a variable are the constraints that compute something from it. -/
theorem WellFormed.mem_consumers (h : s.WellFormed) {x : Variable T}
    (hx : s.variableAt? v = some x) : k ∈ s.consumers x ↔ ∃ w, s.Reads k v w := by
  unfold consumers
  rw [List.mem_filter]
  constructor
  · rintro ⟨hmem, hk⟩
    simp only [ne_eq, Bool.and_eq_true, decide_eq_true_eq, isEnforcing, Option.any_eq_true] at hk
    obtain ⟨hne, node, hnode, hen⟩ := hk
    obtain ⟨node', hnode', _, hv⟩ := (h.incident hx k).1 hmem
    obtain rfl := Option.some.inj (hnode.symm.trans hnode')
    obtain ⟨o, hout⟩ := h.exists_output hnode hen
    refine ⟨o, node, hnode, hout, hv, ?_⟩
    -- the constraint does not determine `v`, so its output is another variable
    intro e
    exact hne ((h.determined hx k).2 ⟨node, hnode, e ▸ hout⟩).symm
  · rintro ⟨w, node, hnode, hout, hv, hne⟩
    obtain ⟨i, m, hi, _, _⟩ := Constraint.output?_eq_some_iff.1 hout
    refine ⟨(h.incident hx k).2 ⟨node, hnode, (h.enforcing hnode hi).1, hv⟩, ?_⟩
    simp only [ne_eq, Bool.and_eq_true, decide_eq_true_eq, isEnforcing, Option.any_eq_true]
    refine ⟨?_, node, hnode, ?_⟩
    · intro e
      obtain ⟨node', hnode', hout'⟩ := (h.determined hx k).1 e.symm
      obtain rfl := Option.some.inj (hnode.symm.trans hnode')
      exact hne (Option.some.inj (hout'.symm.trans hout))
    · rw [Constraint.isEnforcing, hi]
      rfl

/-! ## Walks that end -/

/-- If walks end from a variable, they end from what it feeds. -/
theorem Ends.of_feeds (h : s.Ends v) (hf : s.Feeds v w) : s.Ends w := h.inv hf

/-- What is downstream of a variable whose walks end has the same property. -/
theorem Ends.of_reaches (h : s.Ends v) (hr : s.Reaches v w) : s.Ends w := by
  induction hr with
  | refl => exact h
  | tail _ hf ih => exact ih.of_feeds hf

/-- A variable whose walks end is on no cycle. -/
theorem Ends.not_transGen (h : s.Ends v) : ¬ TransGen s.Feeds v v := by
  induction h with
  | intro v _ ih =>
    intro hcycle
    -- the cycle passes through the next variable, whose walks end sooner
    obtain ⟨w, hf, hw⟩ := TransGen.head'_iff.1 hcycle
    exact ih w hf (TransGen.tail' hw hf)

/-- An acyclic graph stays acyclic if walks end from wherever its new edges lead. -/
theorem Acyclic.of_ends (h : s.Acyclic)
    (hnew : ∀ v w, s'.Feeds v w → s.Feeds v w ∨ s'.Ends w) : s'.Acyclic := by
  intro v
  -- by induction along the old edges, which new ones leave only towards ends
  induction h v with
  | intro v _ ih =>
    refine .intro v fun w hf => ?_
    rcases hnew v w hf with hold | hends
    · exact ih w hold
    · exact hends

/-- An acyclic graph stays acyclic if no edges come. -/
theorem Acyclic.of_reads (h : s.Acyclic) (hr : ∀ {k v w}, s'.Reads k v w → s.Reads k v w) :
    s'.Acyclic :=
  h.of_ends fun _ _ ⟨k, hk⟩ => .inl ⟨k, hr hk⟩

/-! ## What the changes do to the edges -/

/-- What reads something also determines something, so `c` reads nothing. -/
theorem Reset.reads_iff {enabled : Bool} (hr : Reset s s' c node enabled) :
    s'.Reads k v w ↔ k ≠ c ∧ s.Reads k v w := by
  by_cases hk : k = c
  · subst hk
    exact iff_of_false (fun h => ((hr.determines_iff k w).1 h.determines).1 rfl) fun h => h.1 rfl
  · unfold Reads
    rw [hr.constraintAt_ne hk]
    exact (and_iff_right hk).symm

/-- A constraint that enters the graph brings no edges. -/
theorem Entered.reads_iff (h : s.WellFormed) (he : Entered s s' c node) :
    s'.Reads k v w ↔ s.Reads k v w := by
  rw [he.reset.reads_iff]
  refine and_iff_right_of_imp fun hr => ?_
  exact ((he.reset.determines_iff k w).1 ((he.determines_iff h k w).2 hr.determines)).1

/-- Leaving the graph takes the edges of `c` away. -/
theorem Detached.reads_iff (hd : Detached s s' c node) :
    s'.Reads k v w ↔ k ≠ c ∧ s.Reads k v w :=
  hd.reset.reads_iff

/-- When the determiner of `a` leaves the graph, what was downstream of `a` still is: the way there
from the last visit to `a` on uses no edge into `a`. -/
theorem Detached.reaches (hd : Detached s s' c node)
    (hout : node.output? = some v) (hr : s.Reaches v u) : s'.Reaches v u := by
  -- the last edge is not one of `c`, unless it leads to `v` again
  induction hr with
  | refl => exact .refl
  | @tail b u _ hf ih =>
    by_cases hu : u = v
    · rw [hu]
    · obtain ⟨k, hk⟩ := hf
      refine ih.tail ⟨k, hd.reads_iff.2 ⟨?_, hk⟩⟩
      rintro rfl
      obtain ⟨n, hn, hout', _⟩ := hk
      obtain rfl := Option.some.inj (hd.before.symm.trans hn)
      exact hu (Option.some.inj (hout'.symm.trans hout))

section Installed

variable {mark : Mark} {i : Nat} {m : Method W T} {x : Variable T}

/-- Installing a method replaces the edges into its output. -/
theorem Installed.reads_iff (h : s.WellFormed) (hi : Installed s s' mark c node i m x) :
    s'.Reads k v w ↔
      if w = m.output then k = c ∧ v ∈ node.definition.vars ∧ v ≠ w else s.Reads k v w := by
  -- an edge is made of a determiner, which may have changed, and a definition, which has not
  have hdef : ∀ {k : ConstraintId}, s'.Reads k v w ↔ s'.Determines k w ∧
      ∃ n, s.constraintAt? k = some n ∧ v ∈ n.definition.vars ∧ v ≠ w := by
    intro k
    constructor
    · rintro ⟨n', hn', hout, hv, hne⟩
      obtain ⟨n, hn, hde, _⟩ := hi.constraint_of hn'
      simp only [Constraint.declared, Prod.mk.injEq] at hde
      exact ⟨⟨n', hn', hout⟩, n, hn, hde.1 ▸ hv, hne⟩
    · rintro ⟨⟨n', hn', hout⟩, n, hn, hv, hne⟩
      obtain ⟨n₀, hn₀, hde, _⟩ := hi.constraint_of hn'
      obtain rfl := Option.some.inj (hn.symm.trans hn₀)
      simp only [Constraint.declared, Prod.mk.injEq] at hde
      exact ⟨n', hn', hout, hde.1 ▸ hv, hne⟩
  rw [hdef, hi.determines_iff h]
  by_cases hw : w = m.output
  · rw [if_pos hw, if_pos hw]
    refine and_congr_right ?_
    rintro rfl
    rw [hi.before.1]
    simp
  · rw [if_neg hw, if_neg hw]
    constructor
    · rintro ⟨⟨n, hn, hout⟩, n', hn', hv⟩
      obtain rfl := Option.some.inj (hn.symm.trans hn')
      exact ⟨n, hn, hout, hv⟩
    · rintro ⟨n, hn, hout, hv⟩
      exact ⟨⟨n, hn, hout⟩, n, hn, hv⟩

/-- An edge of the graph after the installation is an old one or leads into the output. -/
theorem Installed.feeds_of_ne (h : s.WellFormed) (hi : Installed s s' mark c node i m x)
    (hw : w ≠ m.output) : s'.Feeds v w ↔ s.Feeds v w :=
  exists_congr fun _ => by rw [hi.reads_iff h, if_neg hw]

/-- After the installation the other variables of `c` feed its output. -/
theorem Installed.feeds_output (h : s.WellFormed) (hi : Installed s s' mark c node i m x)
    (hv : v ∈ node.definition.vars) (hne : v ≠ m.output) : s'.Feeds v m.output := by
  refine ⟨c, (hi.reads_iff h).2 ?_⟩
  rw [if_pos rfl]
  exact ⟨rfl, hv, hne⟩

end Installed

end Solver

end DeltaBlue
