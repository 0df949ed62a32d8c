/-!
# Identifiers

Variables and constraints are addressed by identifiers made of a slot index and a generation. A slot
that is vacated and used again gets a new generation, so an identifier kept from before is told
apart from the one in force. The kind of thing addressed is part of the type, so a variable is never
looked up with a constraint's identifier.
-/

namespace DeltaBlue

/-- What an identifier addresses. -/
inductive Kind
  | var
  | constraint
  deriving DecidableEq

/-- An identifier of a thing of kind `k`. -/
@[ext] structure Key (k : Kind) where
  /-- The slot that holds the thing. -/
  index : Nat
  /-- How many times the slot was vacated before, modulo `2 ^ 32`. -/
  generation : UInt32
  deriving DecidableEq

/-- The identifier of a variable. -/
abbrev VarId := Key .var

/-- The identifier of a constraint. -/
abbrev ConstraintId := Key .constraint

/-- The letter that identifiers of a kind are written with. -/
def Kind.letter : Kind → String
  | var => "v"
  | constraint => "c"

namespace Key

variable {k : Kind}

/-- Identifiers are ordered by slot, then by generation. -/
def before (a b : Key k) : Bool :=
  a.index < b.index || (a.index == b.index && a.generation < b.generation)

/-- The text of an identifier: `v3` in the first generation, `v3#2` afterwards. -/
def text (a : Key k) : String :=
  if a.generation = 0 then s!"{k.letter}{a.index}"
  else s!"{k.letter}{a.index}#{a.generation}"

instance : ToString (Key k) := ⟨text⟩

/-- Insert an identifier into a list in increasing order, after those that are not above it. -/
def sortedInsert (a : Key k) : List (Key k) → List (Key k)
  | [] => [a]
  | b :: rest => if a.before b then a :: b :: rest else b :: sortedInsert a rest

/-- The identifiers of a list in increasing order. -/
def sort (ids : List (Key k)) : List (Key k) := ids.foldr sortedInsert []

end Key

/-- The identifier of a variable or of a constraint. -/
inductive Handle
  | var (v : VarId)
  | constraint (c : ConstraintId)
  deriving DecidableEq

end DeltaBlue
