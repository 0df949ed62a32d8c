/-!
# Constraint strengths

A constraint is declared with one of five strengths. They are ordered from `weakest`, the strength
with which a variable is held when no constraint determines it, to `required`, which may never be
left unsatisfied. The order is the order of `Strength.rank`.
-/

namespace DeltaBlue

/-- How strongly a constraint insists on being satisfied. -/
inductive Strength
  | weakest
  | weak
  | medium
  | strong
  | required
  deriving DecidableEq

namespace Strength

/-- The position of a strength in the hierarchy, counted from the weakest. -/
def rank : Strength → Nat
  | weakest => 0
  | weak => 1
  | medium => 2
  | strong => 3
  | required => 4

instance : Inhabited Strength := ⟨medium⟩

instance : LT Strength := ⟨fun a b => a.rank < b.rank⟩

instance : LE Strength := ⟨fun a b => a.rank ≤ b.rank⟩

instance (a b : Strength) : Decidable (a < b) := inferInstanceAs (Decidable (a.rank < b.rank))

instance (a b : Strength) : Decidable (a ≤ b) := inferInstanceAs (Decidable (a.rank ≤ b.rank))

instance : Ord Strength := ⟨fun a b => compare a.rank b.rank⟩

/-- Strengths are ordered by rank. -/
theorem lt_def (a b : Strength) : a < b ↔ a.rank < b.rank := Iff.rfl

/-- Strengths are ordered by rank, and two are equal as soon as their ranks are. -/
theorem le_def (a b : Strength) : a ≤ b ↔ a.rank ≤ b.rank := Iff.rfl

/-- A strength is determined by its rank. -/
theorem rank_injective {a b : Strength} (h : a.rank = b.rank) : a = b := by
  cases a <;> cases b <;> first | rfl | exact absurd h (by decide)

/-- All strengths, weakest first. -/
def all : List Strength := [weakest, weak, medium, strong, required]

/-- The weaker of two strengths. -/
def weakestOf (a b : Strength) : Strength := if b < a then b else a

/-- The stronger of two strengths. -/
def strongestOf (a b : Strength) : Strength := if a < b then b else a

/-- Whether a constraint of this strength may never be left unsatisfied. -/
def isRequired (a : Strength) : Bool := a = required

/-- The name of a strength in messages and answers. -/
def name : Strength → String
  | weakest => "weakest"
  | weak => "weak"
  | medium => "medium"
  | strong => "strong"
  | required => "required"

/-- The strength called `s`. -/
def ofName? (s : String) : Option Strength := all.find? (·.name = s)

end Strength

end DeltaBlue
