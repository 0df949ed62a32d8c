import DeltaBlue.Call
import DeltaBlue.Network.Chain
import DeltaBlue.Network.Projection
import DeltaBlue.Session.World

/-!
# Commands of a session

A command is a call of the solver, or something that a script may do besides: keep plans, groups and
chains by name, set up a network, or look at the world. What comes of it is reported together with
the calls recorded during the command and the notices of the journal.
-/

namespace DeltaBlue

/-- One command of a session. -/
inductive Command (T : Type)
  /-- A call of the solver. -/
  | call (c : Call (World T) T)
  /-- Declare a constraint and store it. -/
  | build (strength : Strength) (parts : List (Registration (World T) T))
  /-- Declare a constraint and enable it. -/
  | constrain (strength : Strength) (parts : List (Registration (World T) T))
  /-- Build a plan and keep it. -/
  | plan (seeds : List Handle) (name : String)
  /-- Execute a plan. -/
  | execute (plan : String)
  /-- Set a cell of the world. -/
  | setCell (cell : String) (value : T)
  /-- Keep a group. -/
  | newGroup (group : Group) (name : String)
  /-- Add constraints to a group. -/
  | extendGroup (group : String) (members : List ConstraintId)
  /-- Add a group to a group. -/
  | nestGroup (group inner : String)
  /-- Describe a group. -/
  | groupInfo (group : String)
  /-- Build a group by a script and keep it. -/
  | buildGroup (script : GroupScript (World T) T) (name : String)
  /-- Enable a group. -/
  | enableGroup (group : String)
  /-- Disable a group. -/
  | disableGroup (group : String)
  /-- Start again with an empty solver. -/
  | newSolver (config : Config)
  /-- Make a one-way chain and keep it. -/
  | oneWayChain (len : Nat) (value : T) (name : String)
  /-- Make a two-way chain and keep it. -/
  | twoWayChain (len : Nat) (value : T) (name : String)
  /-- Describe a chain. -/
  | chainInfo (chain : String)
  /-- Make a projection. -/
  | projection (rule : Scaling T) (src scale offset : T) (strength : Strength)
  /-- Start again with an anchored chain, which is kept. -/
  | anchoredChain (len : Nat) (value : T) (name : String)
  /-- Start again with a volatile chain, which is kept. -/
  | volatileChain (len : Nat) (value : T) (name : String)
  /-- Start again with projections. -/
  | projections (rule : Scaling T) (count : Nat)
  /-- Set what the head of a volatile chain reads. -/
  | feed (value : T)
  /-- What a recorder was shown; it may be cleared afterwards. -/
  | recorder (name : String) (clear : Bool)
  /-- How often a counter was hit; it may be reset afterwards. -/
  | counter (name : String) (reset : Bool)

/-- What a command gives back. -/
inductive Reply (T : Type)
  /-- The answer of the solver. -/
  | answer (a : Answer (World T) T)
  /-- A group that was kept. -/
  | group (g : Group)
  /-- A group to be described. -/
  | groupInfo (g : Group)
  /-- A configuration was refused, and the solver stayed. -/
  | refused (e : ConfigError)
  /-- A chain that was kept. -/
  | chain (c : Chain)
  /-- The ends, the middle and the values of a chain. -/
  | chainInfo (first middle last : Option VarId) (values : List T)
  /-- A projection. -/
  | projection (p : Projection)
  /-- Several projections. -/
  | projections (ps : List Projection)
  /-- What a recorder was shown. -/
  | recorded (calls : List (List T))
  /-- How often a counter was hit. -/
  | count (n : Nat)

/-- How a command ends. -/
inductive Result (T : Type)
  /-- It succeeds. -/
  | ok (reply : Reply T)
  /-- It fails. -/
  | failed (e : SolveError)
  /-- It refers to something that is not kept under the name. -/
  | unknownName (name : String)
  /-- It does not finish. -/
  | unfinished

/-- What is known after a command. -/
structure Report (T : Type) where
  /-- How the command ended. -/
  result : Result T
  /-- The calls recorded during the command, in order. -/
  events : List (Event T)
  /-- The notices of the command, in order. -/
  journal : List (Notice T)

/-- How many variables and constraints a command may add. -/
def Command.size {T : Type} : Command T → Nat
  | oneWayChain len .. | twoWayChain len .. | anchoredChain len .. | volatileChain len .. =>
    2 * len + 2
  | projections _ count => 8 * count
  | projection .. => 8
  | _ => 2

end DeltaBlue
