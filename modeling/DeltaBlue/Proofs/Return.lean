import DeltaBlue.Proofs.Runs
import DeltaBlue.Proofs.Termination

/-!
# Which calls return

A call returns unless one of its walks goes round. On a solver that is reached by calls this does
happen. A cycle that a new method closes is found at one of the variables that the
method reads, and one constraint is removed for it; if the method closes a second cycle through
another of these variables, the walk that follows the removal goes round it for ever. So if two
variables that a constraint reads are computed from the variable that it is to determine, enabling
it never returns: `SolveM.enable_never`.
-/

namespace DeltaBlue

namespace Solver

variable {W T : Type} {s s' s₂ s₃ : Solver W T} {c closing : ConstraintId} {node n : Constraint W T}
  {o a v w : VarId}

/-- Where the walk from a variable ends, no variable that it feeds feeds it. -/
theorem Ends.not_feeds_back (h : s.Ends v) (hw : s.Feeds v w) : ¬ s.Feeds w v :=
  fun hback => h.not_transGen (.tail (.single hw) hback)

/-- Two variables of the constraint are computed from `o`. -/
def FeedsTwo (s : Solver W T) (d : Definition W T) (o : VarId) : Prop :=
  ∃ a b, a ≠ b ∧ (a ∈ d.vars ∧ s.Feeds o a) ∧ b ∈ d.vars ∧ s.Feeds o b

/-- One of the two is not the variable that is given. -/
theorem FeedsTwo.other (h : s.FeedsTwo node.definition o) (a : VarId) :
    ∃ b ∈ node.definition.vars, b ≠ a ∧ b ≠ o ∧ s.Feeds o b := by
  have hne : ∀ {b}, s.Feeds o b → b ≠ o := fun ⟨_, _, _, _, _, hne⟩ he => hne he.symm
  obtain ⟨b, b', hbb', ⟨hb, hf⟩, hb', hf'⟩ := h
  by_cases hba : b = a
  · exact ⟨b', hb', fun he => hbb' (hba.trans he.symm), hne hf', hf'⟩
  · exact ⟨b, hb, hba, hne hf, hf⟩

section Installed

variable {mark : Mark} {i : Nat} {method : Method W T} {x : Variable T}
  (hi : Installed s s' mark c node i method x) (h : s.WellFormed)
  (htwo : s.FeedsTwo node.definition method.output)
include hi h htwo

/-- The method closes a cycle. -/
theorem Installed.not_ends : ¬ s'.Ends method.output := by
  obtain ⟨b, hb, _, hbo, hf⟩ := htwo.other method.output
  intro hends
  exact hends.not_feeds_back ((hi.feeds_of_ne h hbo).2 hf) (hi.feeds_output h hb hbo)

/-- The method closes a cycle that is still there when the determiner of another variable of the
constraint is removed. -/
theorem Installed.not_ends_detached (hr : s'.Repaints s₂) (hd : Detached s₂ s₃ closing n)
    (hout : n.output? = some a) (ha : a ∈ node.definition.vars) (hao : a ≠ method.output) :
    ¬ s₃.Ends a := by
  have hclosing : s₂.Determines closing a := ⟨n, hd.before, hout⟩
  -- an edge to another variable is not an edge of the constraint that was removed
  have hkeep : ∀ {v w}, w ≠ a → s'.Feeds v w → s₃.Feeds v w := by
    rw [← hr.feeds]
    rintro v w hw ⟨k, hk⟩
    refine ⟨k, hd.reads_iff.2 ⟨?_, hk⟩⟩
    rintro rfl
    exact hw (hk.determines.unique hclosing)
  obtain ⟨b, hb, hba, hbo, hf⟩ := htwo.other a
  intro hends
  have hback := hends.of_feeds (hkeep hao.symm (hi.feeds_output h ha hao))
  exact hback.not_feeds_back (hkeep hba ((hi.feeds_of_ne h hbo).2 hf))
    (hkeep hao.symm (hi.feeds_output h hb hbo))

end Installed

end Solver

namespace SolveM

variable {W T : Type} {m : Machine W T} {cells : Prop} {c : ConstraintId} {node : Constraint W T}
  {method : Method W T} {fuel : Nat}

/-- An operation that can only return what is impossible does not return. -/
theorem exec_eq_none {α : Type} {op : SolveM W T α} (h : Ensures op m fun _ _ => False) :
    exec op m = none :=
  Option.eq_none_iff_forall_ne_some.2 fun ⟨r, m'⟩ hr => h r m' hr

/-- A constraint is not withdrawn from a graph in which the walk from its output goes round. -/
theorem withdraw_never {add : ConstraintId → SolveM W T Unit} {s : Solver W T}
    {a : VarId} (h : s.WellFormed) (hoff : SwitchedOff s m.solver c node)
    (hmend : s.Mendable cells node) (hout : node.output? = some a)
    (hround : ∀ s', s.Detached s' c node → ¬ s'.Ends a) :
    Ensures (withdraw add fuel c) m fun _ _ => False := by
  rw [withdraw_eq, ensures_bind]
  refine (ensures_detach h.toGrounded hoff).mono ?_
  rintro _ m₁ ⟨rfl, hd, _⟩
  rw [hout]
  simp only [mend, ensures_bind, ensures_ask]
  refine (ensures_strandedFrom_renews (Solver.settled_renewable fun _ => cells) h hd hout
    hmend.pending).mono ?_
  rintro r m₂ ⟨_, _, _, hends⟩
  exact absurd hends (hround m₁.solver hd)

/-- A constraint whose methods each close two cycles is not enforced in a new pass: the walk that
follows the removal goes round the second. -/
theorem enforce_never {add : ConstraintId → SolveM W T Unit} {mark : Mark}
    (h : m.solver.WellFormed) (hpass : m.solver.InPass cells mark c)
    (hfresh : ∀ v, ¬ m.solver.Claimed mark v) (hnode : m.solver.constraintAt? c = some node)
    (hen : node.enabled = true) (hidle : node.enforcing = none)
    (hmethod : method ∈ node.definition.methods)
    (husable : m.solver.Usable mark node.definition method)
    (htwo : ∀ method ∈ node.definition.methods, m.solver.FeedsTwo node.definition method.output) :
    Ensures (enforce (withdraw add fuel) fuel mark c) m fun _ _ => False := by
  unfold enforce
  rw [ensures_bind]
  refine (ensures_install h hnode hen hidle).mono ?_
  rintro r m₁ (⟨_, _, hheld⟩ | ⟨i, x, method, hi, rfl, hp₁, _⟩)
  · exact absurd husable (hheld.not_usable hmethod)
  have htwo := htwo method (Definition.mem_of_method? hi.method)
  simp only
  rw [ensures_bind]
  refine (ensures_sweep_installed h hi hpass.settled).mono ?_
  rintro r m₂ ⟨hw, hswept⟩
  match r, hswept with
  -- the sweep would have ended, although the method closes a cycle
  | .ok none, ⟨_, hends⟩ =>
    exact absurd (hends c (OrderedSet.mem_singleton.2 rfl) _ hi.determines) (hi.not_ends h htwo)
  -- one cycle is broken, and the walk that mends this goes round the other
  | .ok (some (closing, a)), hswept =>
    obtain ⟨⟨n, hn, hout⟩, hclaimed, _⟩ := id hswept
    have hn₂ : m₂.solver.constraintAt? closing = some n := (hw.constraintAt closing).trans hn
    -- what is claimed are the other variables of the constraint
    obtain ⟨hao, ha⟩ := (hi.claimed_iff h).1 hclaimed
    have ha := ha.resolve_left (hfresh a)
    simp only [ensures_bind, ensures_note, ensures_count]
    refine .changeConstraint hn₂ ?_
    refine Ensures.mono (withdraw_never ((h.installed hi).repaints hw.toRepaints) ?_
      (hpass.mendable hi h hp₁ hw hn₂ hswept) hout fun s' hd => ?_) fun _ _ => False.elim
    · exact ⟨hn₂, (switchedOff_modifyConstraint hn₂).constraintAt, fun _ => rfl⟩
    · exact hi.not_ends_detached h htwo hw.toRepaints hd hout ha hao

/-- A constraint is not added if two variables that it reads are computed from its output. -/
theorem add_never (h : m.solver.Sound cells)
    (hlt : m.solver.passes + 1 < 2 ^ 64) (hnode : m.solver.constraintAt? c = some node)
    (hen : node.enabled = true) (hidle : node.enforcing = none)
    (hmethod : method ∈ node.definition.methods) {x : Variable T}
    (hx : m.solver.variableAt? method.output = some x)
    (hweak : x.walkStrength < node.definition.strength)
    (htwo : ∀ method ∈ node.definition.methods, m.solver.FeedsTwo node.definition method.output) :
    Ensures (add fuel c) m fun _ _ => False := by
  refine ensures_add_of_displace fun fuel => ?_
  cases fuel with
  | zero => exact ensures_unfinished
  | succ fuel =>
    unfold displace
    rw [ensures_bind]
    have hfresh := h.unclaimed hlt
    exact Ensures.mono (enforce_never h.toWellFormed.nextPass (h.inPass hlt c) hfresh hnode hen hidle
      hmethod ⟨x, hx, fun hmark => hfresh _ ⟨x, hx, hmark⟩, hweak⟩ htwo) fun _ _ => False.elim

/-- A constraint is never enabled if two variables that it reads are computed from its output,
whichever of its methods is used. -/
theorem enable_never (h : m.solver.Sound cells) (hlt : m.solver.passes + 1 < 2 ^ 64)
    (hnode : m.solver.constraintAt? c = some node) (hoff : node.enabled = false)
    (hmethod : method ∈ node.definition.methods) {x : Variable T}
    (hx : m.solver.variableAt? method.output = some x)
    (hweak : x.walkStrength < node.definition.strength)
    (htwo : ∀ method ∈ node.definition.methods, m.solver.FeedsTwo node.definition method.output)
    (fuel : Nat) : exec (enable fuel c) m = none := by
  refine exec_eq_none (ensures_enable h hnode hoff fun m₁ h₁ he hp _ _ _ => ?_)
  have hnode₁ := he.constraintAt c
  rw [if_pos rfl] at hnode₁
  have hfeeds : ∀ {v w}, m.solver.Feeds v w → m₁.solver.Feeds v w :=
    fun ⟨k, hk⟩ => ⟨k, (he.reads_iff h.toWellFormed).2 hk⟩
  -- entering makes no edge, so the two variables are still computed from the output
  refine ensures_settle_cases (add_never h₁ (hp ▸ hlt) hnode₁ rfl rfl hmethod
    (by rw [he.variableAt, hx]; rfl) ?_ fun method hmethod => ?_) (fun _ => False.elim)
    (fun _ _ => False.elim) fun _ _ _ => False.elim
  · split
    · exact hweak
    · exact hweak
  · obtain ⟨a, b, hab, ⟨ha, hfa⟩, hb, hfb⟩ := htwo method hmethod
    exact ⟨a, b, hab, ⟨ha, hfeeds hfa⟩, hb, hfeeds hfb⟩

end SolveM

namespace Call

variable {W T : Type}

/-- A call returns, from some amount of fuel on and then always the same, unless it goes round: from
some amount of fuel on it is stopped in one and the same graph, and the methods in force form a
cycle there. -/
theorem returns_iff (call : Call W T) (m : Machine W T) :
    (∃ r m' bound, ∀ fuel, bound ≤ fuel → SolveM.exec (call.run fuel) m = some (r, m')) ↔
      ¬ SolveM.Circles (fun fuel => call.run fuel) m := by
  constructor
  · rintro ⟨r, m', bound, hreturns⟩ hcircles
    exact hcircles.not_returns (Q := fun _ _ => True) ⟨r, m', trivial, bound, hreturns⟩
  · -- a call returns or circles, whatever the graph
    intro hnot
    obtain ⟨r, m', _, bound, hreturns⟩ := (run_concludes call m).resolve_right hnot
    exact ⟨r, m', bound, hreturns⟩

/-- Makes two variables copies of a third, and stores a constraint that is to determine the third
from the two. -/
def twoCopies : List (Call Unit Nat) :=
  [.newVariables [0, 0, 0],
    .constrain (.ofMethod .strong none
      (.compute ⟨0, 0⟩ [⟨2, 0⟩] (.total fun values w => (values.sum, w))) ⟨by decide, by decide⟩),
    .constrain (.ofMethod .strong none
      (.compute ⟨1, 0⟩ [⟨2, 0⟩] (.total fun values w => (values.sum, w))) ⟨by decide, by decide⟩),
    .insert (.ofMethod .strong none
      (.compute ⟨2, 0⟩ [⟨0, 0⟩, ⟨1, 0⟩] (.total fun values w => (values.sum, w)))
      ⟨by decide, by decide⟩)]

/-- With two copies of a variable, enabling the constraint that determines the variable from the
copies never returns. -/
theorem enable_twoCopies_never_returns : ∃ m : Machine Unit Nat,
    runAll 9 twoCopies ⟨.empty {}, (), []⟩ = some m ∧ (∃ plans, Run True {} plans m) ∧
    ∀ fuel, SolveM.exec ((Call.enable ⟨2, 0⟩).run fuel) m = none := by
  have hany : (runAll 9 twoCopies ⟨.empty {}, (), []⟩).any (fun m =>
      m.solver.passes + 1 < 2 ^ 64 ∧
      ((m.solver.constraintAt? ⟨2, 0⟩).any fun node => node.enabled = false ∧
        node.definition.methods.map Method.output = [⟨2, 0⟩] ∧
        ⟨0, 0⟩ ∈ node.definition.vars ∧ ⟨1, 0⟩ ∈ node.definition.vars ∧
        (m.solver.variableAt? ⟨2, 0⟩).any fun x => x.walkStrength < node.definition.strength) ∧
      ((m.solver.constraintAt? ⟨0, 0⟩).any fun node =>
        node.output? = some ⟨0, 0⟩ ∧ ⟨2, 0⟩ ∈ node.definition.vars) ∧
      ((m.solver.constraintAt? ⟨1, 0⟩).any fun node =>
        node.output? = some ⟨1, 0⟩ ∧ ⟨2, 0⟩ ∈ node.definition.vars)) = true := by
    decide +kernel
  simp only [Option.any_eq_true, decide_eq_true_eq] at hany
  obtain ⟨m, hm, hlt, ⟨node, hnode, hoff, houtputs, h₀, h₁, x, hx, hweak⟩,
    ⟨n₀, hn₀, hout₀, hv₀⟩, ⟨n₁, hn₁, hout₁, hv₁⟩⟩ := hany
  have hstart : Run True {} [] (⟨.empty {}, (), []⟩ : Machine Unit Nat) := .start ()
  obtain ⟨plans, h⟩ := Run.runAll hstart (by decide) hm
  have houtput : ∀ method ∈ node.definition.methods, method.output = ⟨2, 0⟩ := by
    intro method hmethod
    have hmem := List.mem_map_of_mem (f := Method.output) hmethod
    rw [houtputs] at hmem
    exact List.mem_singleton.1 hmem
  obtain ⟨method, hmethod, hout⟩ : ∃ method ∈ node.definition.methods,
      method.output = (⟨2, 0⟩ : VarId) := by
    have hmem : (⟨2, 0⟩ : VarId) ∈ node.definition.methods.map Method.output := by simp [houtputs]
    exact List.mem_map.1 hmem
  refine ⟨m, hm, ⟨plans, h⟩, fun fuel => ?_⟩
  have hnever := SolveM.enable_never h.sound.1 hlt hnode hoff hmethod (hout.symm ▸ hx) hweak ?_ fuel
  · rw [run, SolveM.exec_bind, hnever]
  · intro method hmethod
    rw [houtput method hmethod]
    exact ⟨⟨0, 0⟩, ⟨1, 0⟩, by decide, ⟨h₀, ⟨0, 0⟩, n₀, hn₀, hout₀, hv₀, by decide⟩,
      h₁, ⟨1, 0⟩, n₁, hn₁, hout₁, hv₁, by decide⟩

end Call

end DeltaBlue
