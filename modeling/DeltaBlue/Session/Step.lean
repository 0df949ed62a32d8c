import DeltaBlue.Session.Command

/-!
# Sessions

A session is a machine with plans, groups and chains kept by name. It carries out commands one after
the other and reports on each.
-/

namespace DeltaBlue

/-- A machine and the things kept by name. -/
structure Session (T : Type) where
  /-- The machine. -/
  machine : Machine (World T) T
  /-- The plans kept. -/
  plans : Table Plan := []
  /-- The groups kept. -/
  groups : Table Group := []
  /-- The chains kept. -/
  chains : Table Chain := []

namespace Session

variable {T : Type}

/-- The session with an empty solver. -/
def ofSolver [Inhabited T] (s : Solver (World T) T) : Session T :=
  { machine := { solver := s, world := { source := default } } }

/-- A number of steps within which every walk ends that follows an acyclic graph of the size that
the graph may reach: in a queue without repetition a graph is walked level by level, and there are
at most as many levels, and as many entries in each, as there are variables and constraints. -/
def fuel (s : Session T) (c : Command T) : Nat :=
  let solver := s.machine.solver
  let size := solver.vars.slots.size + solver.constraints.slots.size + c.size + 8
  size * size

/-- Carry out an operation of the solver. -/
def perform {α : Type} (s : Session T) (op : SolveM (World T) T α)
    (k : α → Session T → Reply T × Session T) : Result T × Session T :=
  match op.exec s.machine with
  | none => (.unfinished, s)
  | some (.error e, machine) => (.failed e, { s with machine := machine })
  | some (.ok a, machine) =>
    let (reply, s) := k a { s with machine := machine }
    (.ok reply, s)

/-- Carry out a call of the solver. -/
def call (s : Session T) (fuel : Nat) (c : Call (World T) T) : Result T × Session T :=
  s.perform (c.run fuel) fun a s => (.answer a, s)

/-- Look a group up and go on with it. -/
def withGroup (s : Session T) (name : String)
    (k : Group → Result T × Session T) : Result T × Session T :=
  match s.groups.lookup name with
  | some g => k g
  | none => (.unknownName name, s)

/-- Keep a group and show it. -/
def keepGroup (s : Session T) (name : String) (g : Group) : Result T × Session T :=
  (.ok (.group g), { s with groups := s.groups.set name g })

/-- Keep a chain and show it. -/
def keepChain (name : String) (c : Chain) (s : Session T) : Reply T × Session T :=
  (.chain c, { s with chains := s.chains.set name c })

/-- Put another solver in place. -/
def withSolver (s : Session T) (solver : Solver (World T) T) : Session T :=
  { s with machine := { s.machine with solver := solver } }

/-- Change the world. -/
def withWorld (s : Session T) (f : World T → World T) : Session T :=
  { s with machine := { s.machine with world := f s.machine.world } }

/-- Carry out a command. -/
def execute (s : Session T) (fuel : Nat) : Command T → Result T × Session T
  | .call c => s.call fuel c
  | .build strength parts =>
    s.perform (do SolveM.insert (← SolveM.declare strength parts))
      fun c s => (.answer (.constraint c), s)
  | .constrain strength parts =>
    s.perform (do SolveM.constrain fuel (← SolveM.declare strength parts))
      fun c s => (.answer (.constraint c), s)
  | .plan seeds name =>
    s.perform (SolveM.plan fuel seeds)
      fun p s => (.answer (.plan p), { s with plans := s.plans.set name p })
  | .execute plan =>
    match s.plans.lookup plan with
    | some p => s.call fuel (.executePlan p)
    | none => (.unknownName plan, s)
  | .setCell cell value =>
    (.ok (.answer .done), s.withWorld fun w => { w with cells := w.cells.set cell value })
  | .newGroup g name => s.keepGroup name g
  | .extendGroup name members => s.withGroup name fun g => s.keepGroup name (g.extend members)
  | .nestGroup name inner =>
    s.withGroup name fun g => s.withGroup inner fun h => s.keepGroup name (g.pushGroup h)
  | .groupInfo name => s.withGroup name fun g => (.ok (.groupInfo g), s)
  | .buildGroup script name =>
    s.perform (SolveM.buildGroup script) fun (g, made) s =>
      (.answer (.built g made), { s with groups := s.groups.set name g })
  | .enableGroup name => s.withGroup name fun g => s.call fuel (.enableGroup g)
  | .disableGroup name => s.withGroup name fun g => s.call fuel (.disableGroup g)
  | .newSolver config =>
    match Solver.ofConfig config with
    | .ok solver => (.ok (.answer .done), s.withSolver solver)
    | .error e => (.ok (.refused e), s)
  | .oneWayChain len value name =>
    s.perform (SolveM.oneWayChain fuel len value) (keepChain name)
  | .twoWayChain len value name =>
    s.perform (SolveM.twoWayChain fuel len value) (keepChain name)
  | .chainInfo name =>
    match s.chains.lookup name with
    | some c =>
      s.perform (SolveM.query c.values)
        fun values s => (.chainInfo c.first? c.middle? c.last? values, s)
    | none => (.unknownName name, s)
  | .projection rule src scale offset strength =>
    s.perform (SolveM.projection fuel rule src scale offset strength)
      fun p s => (.projection p, s)
  | .anchoredChain len value name =>
    (s.withSolver default).perform (SolveM.anchoredChain fuel len value) (keepChain name)
  | .volatileChain len value name =>
    let s := (s.withSolver default).withWorld fun w => { w with source := value }
    s.perform (SolveM.volatileChain fuel len value World.source) (keepChain name)
  | .projections rule count =>
    (s.withSolver default).perform (SolveM.projectionsFrom fuel rule 0 count)
      fun ps s => (.projections ps, s)
  | .feed value => (.ok (.answer .done), s.withWorld fun w => { w with source := value })
  | .recorder name clear =>
    let calls := s.machine.world.recorded name
    (.ok (.recorded calls),
      if clear then s.withWorld fun w => { w with recorders := w.recorders.set name [] } else s)
  | .counter name reset =>
    let n := s.machine.world.hits name
    (.ok (.count n),
      if reset then s.withWorld fun w => { w with counters := w.counters.set name 0 } else s)

/-- Carry out a command and report on it. -/
def step (s : Session T) (c : Command T) : Report T × Session T :=
  let fresh := s.machine
  let s := { s with
    machine := { fresh with journal := [], world := { fresh.world with events := [] } } }
  let (result, s) := s.execute (s.fuel c) c
  (⟨result, s.machine.world.events.reverse, s.machine.journal.reverse⟩, s)

end Session

end DeltaBlue
