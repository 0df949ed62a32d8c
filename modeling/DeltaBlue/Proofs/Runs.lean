import DeltaBlue.Proofs.Calls

/-!
# Runs

A run makes calls on a solver that begins without variables and constraints, and every call returns,
with an answer or with an error; between calls the world outside may change as it likes. Runs are
restricted in two ways. An observer is removed only if no other constraint mentions its hidden sink.
And in a run with `own`, the plans that are executed are those that the solver itself has built in
the run, less than `2 ^ 64` changes ago, so that their generation has not come back.

What holds after every call is shown by induction over runs: the graph is sound, and the steps of a
plan are good for as long as the generation is the one at which it was built.
-/

namespace DeltaBlue

variable {W T : Type}

namespace Call

/-- The plan that a call has built, with the number of changes up to then. -/
def issued (call : Call W T) (r : Except SolveError (Answer W T)) (changes : Nat) :
    List (Plan × Nat) :=
  match call, r with
  | plan _, .ok (.plan p) => [(p, changes)]
  | _, _ => []

/-- A call issues a plan exactly if it is the one that has built it. -/
theorem mem_issued {call : Call W T} {r : Except SolveError (Answer W T)} {p : Plan} {n k : Nat} :
    (p, n) ∈ call.issued r k ↔ ∃ seeds, call = plan seeds ∧ r = .ok (.plan p) ∧ n = k := by
  unfold issued
  split
  · next seeds q =>
    rw [List.mem_singleton, Prod.mk.injEq]
    constructor
    · rintro ⟨rfl, rfl⟩
      exact ⟨seeds, rfl, rfl, rfl⟩
    · rintro ⟨_, _, hr, rfl⟩
      exact ⟨(Answer.plan.inj (Except.ok.inj hr)).symm, rfl⟩
  · next hnot =>
    refine iff_of_false List.not_mem_nil ?_
    rintro ⟨seeds, rfl, rfl, _⟩
    exact hnot seeds p rfl rfl

/-- The call may be made in a run in which the given plans were built. -/
def Admissible (own : Prop) (plans : List (Plan × Nat)) (s : Solver W T) : Call W T → Prop
  | removeConstraint c => s.OwnsSink c
  | executePlan p => own → ∃ n, (p, n) ∈ plans ∧ s.changes < n + 2 ^ 64
  | _ => True

/-- Whether a call may be made in every run. -/
def isPlain : Call W T → Bool
  | removeConstraint _ | executePlan _ => false
  | _ => true

/-- A plain call may be made in every run. -/
theorem admissible_of_isPlain {own : Prop} {plans : List (Plan × Nat)} {s : Solver W T}
    {call : Call W T} (h : call.isPlain = true) : call.Admissible own plans s := by
  cases call <;> trivial

/-- Whether a call has failed with the given error. -/
def hasFailed (e : SolveError) : Except SolveError (Answer W T) → Bool
  | .error e' => e' = e
  | .ok _ => false

/-- If the test succeeds, the call has failed with this error. -/
theorem eq_error_of_hasFailed {e : SolveError} {r : Except SolveError (Answer W T)}
    (h : hasFailed e r = true) : r = .error e := by
  cases r with
  | error e' => exact congrArg Except.error (of_decide_eq_true h)
  | ok _ => cases h

/-- Whether a call has succeeded with nothing to give back. -/
def isDone : Except SolveError (Answer W T) → Bool
  | .ok .done => true
  | _ => false

/-- If the test succeeds, the call has succeeded with nothing to give back. -/
theorem eq_done_of_isDone {r : Except SolveError (Answer W T)} (h : isDone r = true) :
    r = .ok .done := by
  cases r with
  | error e => cases h
  | ok a =>
    cases a with
    | done => rfl
    | _ => cases h

/-- Make calls one after the other; no result if one of them does not return or fails a test. -/
def runWhile (test : Call W T → Machine W T → Machine W T → Bool) (fuel : Nat) :
    List (Call W T) → Machine W T → Option (Machine W T)
  | [], m => some m
  | call :: rest, m => do
    let (_, m') ← (call.run fuel).exec m
    if test call m m' then runWhile test fuel rest m' else none

/-- Make calls one after the other; no result if one of them does not return. -/
def runAll (fuel : Nat) : List (Call W T) → Machine W T → Option (Machine W T)
  | [], m => some m
  | call :: rest, m => do
    let (_, m') ← (call.run fuel).exec m
    runAll fuel rest m'

/-- Make calls one after the other; no result if one of them does not return or fails. -/
def runOk (fuel : Nat) : List (Call W T) → Machine W T → Option (Machine W T)
  | [], m => some m
  | call :: rest, m => do
    let (r, m') ← (call.run fuel).exec m
    if r.isOk then runOk fuel rest m' else none

end Call

/-- The machines that are reached by making calls, with the plans that were built on the way. -/
inductive Run (own : Prop) (config : Config) : List (Plan × Nat) → Machine W T → Prop
  /-- A new solver. -/
  | start (w : W) : Run own config [] ⟨.empty config, w, []⟩
  /-- The world outside changes. -/
  | outside {plans : List (Plan × Nat)} {m : Machine W T} (w : W) (h : Run own config plans m) :
    Run own config plans { m with world := w }
  /-- A call returns. -/
  | call {plans : List (Plan × Nat)} {m m' : Machine W T} {r : Except SolveError (Answer W T)}
    (fuel : Nat) (call : Call W T) (h : Run own config plans m)
    (hcall : call.Admissible own plans m.solver) (hrun : (call.run fuel).exec m = some (r, m')) :
    Run own config (call.issued r m'.solver.changes ++ plans) m'

/-- The machines that are reached by calls that all meet a condition on the machine before the call,
the result and the machine after it. -/
inductive RunWith (ok : Nat → Call W T → Machine W T → Except SolveError (Answer W T) →
    Machine W T → Prop) (own : Prop) (config : Config) : List (Plan × Nat) → Machine W T → Prop
  /-- A new solver. -/
  | start (w : W) : RunWith ok own config [] ⟨.empty config, w, []⟩
  /-- The world outside changes. -/
  | outside {plans : List (Plan × Nat)} {m : Machine W T} (w : W)
    (h : RunWith ok own config plans m) : RunWith ok own config plans { m with world := w }
  /-- A call returns and meets the condition. -/
  | call {plans : List (Plan × Nat)} {m m' : Machine W T} {r : Except SolveError (Answer W T)}
    (fuel : Nat) (call : Call W T) (h : RunWith ok own config plans m)
    (hcall : call.Admissible own plans m.solver) (hrun : (call.run fuel).exec m = some (r, m'))
    (hok : ok fuel call m r m') :
    RunWith ok own config (call.issued r m'.solver.changes ++ plans) m'

/-- Calls that meet a condition are calls. -/
theorem RunWith.run {ok : Nat → Call W T → Machine W T → Except SolveError (Answer W T) →
    Machine W T → Prop} {own : Prop} {config : Config} {plans : List (Plan × Nat)}
    {m : Machine W T} (h : RunWith ok own config plans m) : Run own config plans m := by
  induction h with
  | start w => exact .start w
  | outside w _ ih => exact .outside w ih
  | call fuel call _ hcall hrun _ ih => exact .call fuel call ih hcall hrun

/-- Calls that may be made in every run and pass the test continue a run. -/
theorem RunWith.runWhile {ok : Nat → Call W T → Machine W T → Except SolveError (Answer W T) →
    Machine W T → Prop} {own : Prop} {config : Config} {plans : List (Plan × Nat)}
    {m m' : Machine W T} {test : Call W T → Machine W T → Machine W T → Bool} {fuel : Nat}
    {calls : List (Call W T)} (h : RunWith ok own config plans m)
    (htest : ∀ {call m r m'}, test call m m' = true → ok fuel call m r m')
    (hplain : ∀ call ∈ calls, call.isPlain = true)
    (hrun : Call.runWhile test fuel calls m = some m') : ∃ plans', RunWith ok own config plans' m' := by
  -- along the calls, each of which extends the run by one
  induction calls generalizing plans m with
  | nil =>
    obtain rfl := Option.some.inj hrun
    exact ⟨plans, h⟩
  | cons call rest ih =>
    obtain ⟨⟨r, m₁⟩, hcall, hrest⟩ := Option.bind_eq_some_iff.1 hrun
    have hadmissible : call.Admissible own plans m.solver :=
      Call.admissible_of_isPlain (hplain call List.mem_cons_self)
    simp only at hrest
    split at hrest
    · next hok =>
      exact ih (h.call fuel call hadmissible hcall (htest hok))
        (fun c hc => hplain c (List.mem_cons_of_mem call hc)) hrest
    · cases hrest

/-- Calls that may be made in every run and succeed continue a run of successful calls. -/
theorem RunWith.runOk {own : Prop} {config : Config} {plans : List (Plan × Nat)}
    {m m' : Machine W T} {fuel : Nat} {calls : List (Call W T)}
    (h : RunWith (fun _ _ _ r _ => ∃ a, r = .ok a) own config plans m)
    (hplain : ∀ call ∈ calls, call.isPlain = true) (hrun : Call.runOk fuel calls m = some m') :
    ∃ plans', RunWith (fun _ _ _ r _ => ∃ a, r = .ok a) own config plans' m' := by
  induction calls generalizing plans m with
  | nil =>
    obtain rfl := Option.some.inj hrun
    exact ⟨plans, h⟩
  | cons call rest ih =>
    obtain ⟨⟨r, m₁⟩, hcall, hrest⟩ := Option.bind_eq_some_iff.1 hrun
    have hadmissible : call.Admissible own plans m.solver :=
      Call.admissible_of_isPlain (hplain call List.mem_cons_self)
    cases r with
    | ok a =>
      exact ih (h.call fuel call hadmissible hcall ⟨a, rfl⟩)
        (fun c hc => hplain c (List.mem_cons_of_mem call hc)) hrest
    | error e => cases hrest

/-- The generation comes back only after `2 ^ 64` changes. -/
theorem Generation.ofChanges_inj {n k : Nat} (hle : n ≤ k) (hlt : k < n + 2 ^ 64)
    (h : Generation.ofChanges n = Generation.ofChanges k) : n = k := by
  have hword := congrArg (fun g => g.value.toNat) h
  simp only [ofChanges, UInt64.toNat_ofNat'] at hword
  omega

/-- What is known of a plan: it was built some changes ago, at the generation that it names, and
since then its steps have stayed good if the set of enabled constraints was not changed. -/
structure Plan.Tracked (s : Solver W T) (p : Plan) (n : Nat) : Prop where
  /-- It was built at the generation after `n` changes. -/
  generation : p.generation = .ofChanges n
  /-- Changes are counted forward. -/
  changes : n ≤ s.changes
  /-- The steps are good if nothing was changed. -/
  good : s.passes < 2 ^ 64 → s.changes = n → ∀ step ∈ p.steps, s.Good step

/-- A solver without variables and constraints is sound. -/
theorem Solver.sound_empty {cells : Prop} (config : Config) :
    (Solver.empty config : Solver W T).Sound cells where
  toWellFormed := wellFormed_empty config
  rest _ :=
    { settled := fun k node _ hn => by simp at hn
      released := fun v x hx => by simp at hx
      acyclic := fun v => .intro v fun w ⟨k, node, hn, _⟩ => by simp at hn
      stamped := fun v x hx => by simp at hx }

namespace Run

variable {own : Prop} {config : Config} {plans : List (Plan × Nat)} {m : Machine W T}

/-- A call that may be made is careful, if the graph is sound and the plans that were built are
tracked. -/
theorem careful {call : Call W T} (htracked : ∀ p n, (p, n) ∈ plans → p.Tracked m.solver n)
    (hcall : call.Admissible own plans m.solver) : call.Careful own m.solver := by
  cases call with
  | removeConstraint c => exact hcall
  | executePlan p =>
    intro hown hlt hgen
    -- a plan of the solver's own whose generation is current was built without changes since
    obtain ⟨n, hmem, hwrap⟩ := hcall hown
    have ht := htracked p n hmem
    refine ht.good hlt (Generation.ofChanges_inj ht.changes hwrap ?_).symm
    rw [← ht.generation, hgen]
    rfl
  | _ => trivial

/-- After every call the graph is sound, and every plan that was built is tracked. -/
theorem sound (h : Run own config plans m) :
    m.solver.Sound own ∧ ∀ p n, (p, n) ∈ plans → p.Tracked m.solver n := by
  induction h with
  | start w =>
    exact ⟨Solver.sound_empty config, nofun⟩
  -- the graph and the number of changes have nothing to do with the world
  | outside w _ ih => exact ih
  | @call plans m m' r fuel call _ hcall hrun ih =>
    obtain ⟨hsound, htracked⟩ := ih
    obtain ⟨hsound', hquiet⟩ := Call.ensures_run hsound (careful htracked hcall) r m' hrun
    refine ⟨hsound', fun p n hmem => ?_⟩
    rcases List.mem_append.1 hmem with hnew | hold
    · -- a plan that was just built
      obtain ⟨seeds, rfl, rfl, rfl⟩ := Call.mem_issued.1 hnew
      obtain ⟨hgen, hgood⟩ := Call.ensures_run_plan hsound _ m' hrun rfl
      exact ⟨hgen, Nat.le_refl _, fun hlt _ => hgood hlt⟩
    · -- an older plan is tracked only while the number of changes stays the same
      have ht := htracked p n hold
      refine ⟨ht.generation, Nat.le_trans ht.changes hquiet.changes, fun hlt hn step hstep => ?_⟩
      have hle := ht.changes
      have hle' := hquiet.changes
      refine hquiet.good (by omega) step (ht.good ?_ (by omega) step hstep)
      exact Nat.lt_of_le_of_lt hquiet.passes hlt

/-- Calls that may be made in every run continue a run. -/
theorem runAll {fuel : Nat} {calls : List (Call W T)} {m' : Machine W T}
    (h : Run own config plans m) (hplain : ∀ call ∈ calls, call.isPlain = true)
    (hrun : Call.runAll fuel calls m = some m') : ∃ plans', Run own config plans' m' := by
  induction calls generalizing plans m with
  | nil =>
    obtain rfl := Option.some.inj hrun
    exact ⟨plans, h⟩
  | cons call rest ih =>
    obtain ⟨⟨r, m₁⟩, hcall, hrest⟩ := Option.bind_eq_some_iff.1 hrun
    have hadmissible : call.Admissible own plans m.solver :=
      Call.admissible_of_isPlain (hplain call List.mem_cons_self)
    exact ih (h.call fuel call hadmissible hcall)
      (fun c hc => hplain c (List.mem_cons_of_mem call hc)) hrest

/-- The three records of which constraint determines which variable agree after every call: the
determiner of a variable is the constraint whose method in force has it as output, which is one
constraint for one variable; a constraint with a method in force is enabled, and the method is one
of its own; and a variable is incident to exactly the enabled constraints that mention it. -/
theorem records_agree (h : Run own config plans m) :
    (∀ v x, m.solver.variableAt? v = some x → ∀ c, x.determinedBy = some c ↔
      ∃ node method, m.solver.constraintAt? c = some node ∧
        node.enforcingMethod? = some method ∧ method.output = v) ∧
    (∀ c k v w, m.solver.Determines c v →
      (m.solver.Determines k v → c = k) ∧ (m.solver.Determines c w → v = w)) ∧
    (∀ c node i, m.solver.constraintAt? c = some node → node.enforcing = some i →
      node.enabled = true ∧ i < node.definition.methods.length) ∧
    (∀ v x, m.solver.variableAt? v = some x → ∀ c, c ∈ x.incident ↔
      ∃ node, m.solver.constraintAt? c = some node ∧ node.enabled = true ∧
        v ∈ node.definition.vars) := by
  have hwf := h.sound.1.toWellFormed
  refine ⟨fun v x hx c => ?_, fun c k v w hc => ⟨hwf.determines_unique hc, hc.unique⟩,
    fun c node i hnode hi => hwf.enforcing hnode hi, fun v x hx c => hwf.incident hx c⟩
  -- to determine a variable is to have a method in force with this output
  rw [hwf.determined hx]
  constructor
  · rintro ⟨node, hnode, hout⟩
    obtain ⟨method, hmethod, he⟩ := Option.map_eq_some_iff.1 hout
    exact ⟨node, method, hnode, hmethod, he⟩
  · rintro ⟨node, method, hnode, hmethod, he⟩
    exact ⟨node, hnode, Option.map_eq_some_iff.2 ⟨method, hmethod, he⟩⟩

/-- The records agree after a variable was made, held by one constraint and by a weaker one. -/
theorem records_agree_two_stays : ∃ m : Machine Unit Nat,
    Call.runAll 9 [.newVariable 5, .stay ⟨0, 0⟩ .strong, .stay ⟨0, 0⟩ .weak]
      ⟨.empty {}, (), []⟩ = some m ∧
    ∀ x, m.solver.variableAt? ⟨0, 0⟩ = some x → ∀ c, x.determinedBy = some c ↔
      ∃ node method, m.solver.constraintAt? c = some node ∧
        node.enforcingMethod? = some method ∧ method.output = ⟨0, 0⟩ := by
  obtain ⟨m, hm⟩ := Option.isSome_iff_exists.1 (show (Call.runAll (W := Unit) (T := Nat) 9
    [.newVariable 5, .stay ⟨0, 0⟩ .strong, .stay ⟨0, 0⟩ .weak] ⟨.empty {}, (), []⟩).isSome by decide)
  have hstart : Run False {} [] (⟨.empty {}, (), []⟩ : Machine Unit Nat) := .start ()
  obtain ⟨plans, h⟩ := runAll hstart (by decide) hm
  exact ⟨m, hm, (records_agree h).1 ⟨0, 0⟩⟩

/-- After every call, whether it succeeded or failed, no variable is computed from itself over any
number of methods in force: a constraint that closed a cycle was disabled, and so was every other
one that closed a cycle when this was repaired. -/
theorem no_dependency_cycle (h : Run own config plans m) (hpasses : m.solver.passes < 2 ^ 64)
    (v : VarId) : ¬ Relation.TransGen m.solver.Feeds v v :=
  ((h.sound.1.rest hpasses).acyclic v).not_transGen

/-- There is no cycle after each of two variables was to be a copy of the other, and the cycle was
found. -/
theorem no_dependency_cycle_two_copies : ∃ m : Machine Unit Nat,
    Call.runAll 9 [.newVariables [0, 0],
      .constrain (.ofMethod .weak none (.compute ⟨0, 0⟩ [⟨1, 0⟩] .first) ⟨by decide, by decide⟩),
      .constrain (.ofMethod .weak none (.compute ⟨1, 0⟩ [⟨0, 0⟩] .first) ⟨by decide, by decide⟩)]
      ⟨.empty {}, (), []⟩ = some m ∧
    m.solver.passes < 2 ^ 64 ∧ m.solver.metrics.cycles = 1 ∧
    ∀ v, ¬ Relation.TransGen m.solver.Feeds v v := by
  have hany : (Call.runAll (W := Unit) (T := Nat) 9 [.newVariables [0, 0],
      .constrain (.ofMethod .weak none (.compute ⟨0, 0⟩ [⟨1, 0⟩] .first) ⟨by decide, by decide⟩),
      .constrain (.ofMethod .weak none (.compute ⟨1, 0⟩ [⟨0, 0⟩] .first) ⟨by decide, by decide⟩)]
      ⟨.empty {}, (), []⟩).any (fun m =>
        m.solver.passes < 2 ^ 64 ∧ m.solver.metrics.cycles = 1) = true := by
    decide +kernel
  obtain ⟨m, hm, hfacts⟩ := (Option.any_eq_true _ _).1 hany
  have hstart : Run False {} [] (⟨.empty {}, (), []⟩ : Machine Unit Nat) := .start ()
  obtain ⟨plans, h⟩ := runAll hstart (by decide) hm
  simp only [decide_eq_true_eq] at hfacts
  exact ⟨m, hm, hfacts.1, hfacts.2, no_dependency_cycle h hfacts.1⟩

end Run

end DeltaBlue
