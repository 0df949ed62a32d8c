import DeltaBlue.Proofs.Conservation

/-!
# What calls are made of

A call enables constraints, disables constraints, and does things aside, in some order. `Moves` is
the relation between a machine and one that is reached from it by such moves, and an operation
`Proceeds` if it leads from a sound graph only to machines so reached. Since every move keeps a sound
graph sound, whatever each kind of move preserves is preserved by every operation that proceeds.

A move may be tied to a condition `P`: a constraint is enabled only when `P` holds of the solver and
the constraint. What is done aside spares the outputs that are constant (`Machine.Spares`), if the cells
are looked at.
-/

namespace DeltaBlue

namespace Machine

variable {W T : Type} {m m' : Machine W T}

/-- Where a constraint has a method in force and its output is constant, neither the cells of its
variables nor the latest deed that concerns it has changed. -/
def Spares (m m' : Machine W T) : Prop :=
  ∀ ⦃c node method⦄, m.solver.constraintAt? c = some node → node.enforcingMethod? = some method →
    m.solver.constantAt method.output = true →
      (∀ v ∈ node.definition.vars, m'.solver.cellAt v = m.solver.cellAt v) ∧ m'.ledger c = m.ledger c

/-- Only enabled constraints have methods in force. -/
theorem Spares.of_beside (h : m.solver.WellFormed) (hbeside : m.solver.Beside m'.solver)
    (hdeeds : m.NoDeed m') : m.Spares m' := by
  intro c node method hnode hmethod _
  obtain ⟨i, hi, _⟩ := Option.bind_eq_some_iff.1 hmethod
  exact ⟨hbeside.cellAt hnode (h.enforcing hnode hi).1, congrFun hdeeds.ledger c⟩

/-- A machine spares its own constant outputs. -/
theorem Spares.refl (m : Machine W T) : m.Spares m := fun _ _ _ _ _ _ => ⟨fun _ _ => rfl, rfl⟩

/-- One change after another, the first of which writes cells only. -/
theorem Spares.trans {m'' : Machine W T} (h : m.Spares m') (hr : m.solver.Rewrites m'.solver)
    (h' : m'.Spares m'') : m.Spares m'' := by
  intro c node method hnode hmethod hconst
  obtain ⟨hcells, hledger⟩ := h hnode hmethod hconst
  obtain ⟨hcells', hledger'⟩ :=
    h' ((hr.constraintAt c).trans hnode) hmethod ((hr.flags method.output).2.trans hconst)
  exact ⟨fun v hv => (hcells' v hv).trans (hcells v hv), hledger'.trans hledger⟩

end Machine

namespace SolveM

open Relation
open Solver (Sound Quiet Beside)

variable {W T α β : Type}

/-- One move of a call. -/
inductive Move (cells : Prop) (P : Solver W T → ConstraintId → Prop) (fuel : Nat) :
    Machine W T → Machine W T → Prop
  /-- A constraint is enabled, or an attempt at this has failed. -/
  | enable {m m' : Machine W T} {r : Except SolveError Unit} (c : ConstraintId)
    (hP : P m.solver c) (hrun : exec (enable fuel c) m = some (r, m')) : Move cells P fuel m m'
  /-- A constraint is disabled, with or without failures on the way. -/
  | disable {m m' : Machine W T} {r : Except SolveError Unit} (c : ConstraintId)
    (hrun : exec (disable fuel c) m = some (r, m')) : Move cells P fuel m m'
  /-- Something else is done that has nothing to do with the enabled constraints. -/
  | aside {m m' : Machine W T} (haside : m.solver.Aside m'.solver)
    (hspares : cells → m.solver.passes < 2 ^ 64 → m.Spares m') (hsound : m'.solver.Sound cells) :
    Move cells P fuel m m'

/-- Any number of moves. -/
abbrev Moves (cells : Prop) (P : Solver W T → ConstraintId → Prop) (fuel : Nat) :
    Machine W T → Machine W T → Prop :=
  ReflTransGen (Move cells P fuel)

variable {cells : Prop} {P : Solver W T → ConstraintId → Prop} {fuel : Nat} {m m' : Machine W T}

/-- A move keeps a sound graph sound, by a quiet change. -/
theorem Move.keeps (hmove : Move cells P fuel m m') (h : m.solver.Sound cells) :
    m'.solver.Sound cells ∧ m.solver.Quiet m'.solver := by
  cases hmove with
  | enable c _ hrun => exact enable_keeps fuel c m h _ _ hrun
  | disable c hrun => exact disable_keeps fuel c m h _ _ hrun
  | aside haside _ hsound => exact ⟨hsound, haside.quiet h.toWellFormed⟩

/-- Moves keep a sound graph sound, by a quiet change. -/
theorem Moves.keeps (hmoves : Moves cells P fuel m m') (h : m.solver.Sound cells) :
    m'.solver.Sound cells ∧ m.solver.Quiet m'.solver := by
  induction hmoves with
  | refl => exact ⟨h, Quiet.transitive.refl _⟩
  -- both parts compose, so the last move is added to what the earlier ones have kept
  | tail _ hmove ih =>
    obtain ⟨h₁, hq₁⟩ := ih
    obtain ⟨h₂, hq₂⟩ := hmove.keeps h₁
    exact ⟨h₂, Quiet.transitive.trans hq₁ hq₂⟩

/-- A change that touches no cell that matters, without a deed. -/
theorem Moves.beside (h : m.solver.WellFormed) (hbeside : m.solver.Beside m'.solver)
    (hdeeds : m.NoDeed m') (hsound : m'.solver.Sound cells) : Moves cells P fuel m m' :=
  .single (.aside hbeside.toAside (fun _ _ => .of_beside h hbeside hdeeds) hsound)

/-- Enabling a constraint under the condition is a move. -/
theorem ensures_move_enable {c : ConstraintId} (hP : P m.solver c) :
    Ensures (enable fuel c) m fun _ m' => Moves cells P fuel m m' :=
  fun _ _ hrun => .single (.enable c hP hrun)

/-- Disabling a constraint is a move. -/
theorem ensures_move_disable (c : ConstraintId) :
    Ensures (disable fuel c) m fun _ m' => Moves cells P fuel m m' :=
  fun _ _ hrun => .single (.disable c hrun)

/-- From a sound graph the operation leads to what is reached by moves. -/
def Proceeds (cells : Prop) (P : Solver W T → ConstraintId → Prop) (fuel : Nat)
    (op : SolveM W T α) : Prop :=
  ∀ m, m.solver.Sound cells → Ensures op m fun _ m' => Moves cells P fuel m m'

/-- One operation after another. -/
theorem Ensures.moves_bind {op : SolveM W T α} {f : α → SolveM W T β}
    {Q : Except SolveError α → Machine W T → Prop} (h : m.solver.Sound cells)
    (hop : Ensures op m fun r m' => Moves cells P fuel m m' ∧ Q r m')
    (hf : ∀ a m', m'.solver.Sound cells → Q (.ok a) m' →
      Ensures (f a) m' fun _ m'' => Moves cells P fuel m' m'') :
    Ensures (op >>= f) m fun _ m'' => Moves cells P fuel m m'' := by
  rw [ensures_bind]
  refine hop.mono ?_
  -- the graph is still sound between the two operations, so the second may be applied there
  rintro r m' ⟨hmoves, hQ⟩
  cases r with
  | ok a => exact (hf a m' (hmoves.keeps h).1 hQ).mono fun _ _ hmoves' => hmoves.trans hmoves'
  | error e => exact hmoves

namespace Proceeds

/-- Returning a value changes nothing. -/
theorem pure (a : α) : Proceeds cells P fuel (pure a : SolveM W T α) :=
  fun _ _ => (ensures_pure a).2 .refl

/-- Failing changes nothing. -/
theorem throw (e : SolveError) : Proceeds cells P fuel (throw e : SolveM W T α) :=
  fun _ _ => (ensures_throw e).2 .refl

/-- A question that may fail changes nothing. -/
theorem query (f : Solver W T → Except SolveError α) : Proceeds cells P fuel (query f) :=
  fun _ _ => (ensures_query f).2 .refl

/-- A question changes nothing. -/
theorem ask (f : Solver W T → α) : Proceeds cells P fuel (ask f) :=
  fun _ _ => (ensures_ask f).2 .refl

/-- Looking up a constraint changes nothing, whether it is found or not. -/
theorem getConstraint (c : ConstraintId) : Proceeds cells P fuel (getConstraint c) := query _

/-- Looking up a variable changes nothing, whether it is found or not. -/
theorem getVariable (v : VarId) : Proceeds cells P fuel (getVariable v) := query _

/-- A notice that tells of no deed. -/
theorem note {n : Notice T} (hn : n.isDeed = false) : Proceeds cells P fuel (note n) :=
  fun _ h => (ensures_note n).2 (.beside h.toWellFormed (Beside.transitive.refl _) (.note hn) h)

/-- Counting work, but nothing that went wrong. -/
theorem count {f : Metrics → Metrics} (hf : ∀ x, (f x).faults = x.faults) :
    Proceeds cells P fuel (count f) := by
  intro m h
  rw [ensures_count]
  -- the counters are no part of the graph
  have halike : m.solver.Alike { m.solver with metrics := f m.solver.metrics } :=
    ⟨fun _ => rfl, fun _ => rfl, rfl, rfl⟩
  exact .beside h.toWellFormed (halike.beside (hf _)) ⟨rfl, rfl⟩ (h.alike halike)

/-- Disabling a constraint is one move. -/
theorem disable (c : ConstraintId) : Proceeds cells P fuel (disable fuel c) :=
  fun _ _ => ensures_move_disable c

/-- If two operations proceed, so does the one after the other. -/
theorem bind {op : SolveM W T α} {f : α → SolveM W T β} (hop : Proceeds cells P fuel op)
    (hf : ∀ a, Proceeds cells P fuel (f a)) : Proceeds cells P fuel (op >>= f) :=
  fun m h => Ensures.moves_bind (Q := fun _ _ => True) h
    ((hop m h).mono fun _ _ hmoves => ⟨hmoves, trivial⟩) fun a m' h' _ => hf a m' h'

/-- An operation that proceeds does so too where its failure is caught. -/
theorem attempt {op : SolveM W T α} (hop : Proceeds cells P fuel op) :
    Proceeds cells P fuel (attempt op) :=
  fun m h => (ensures_attempt op).2 (hop m h)

end Proceeds

end SolveM

end DeltaBlue
