import DeltaBlue.Cell

/-!
# Text formulas

Formulas over strings of characters.
-/

namespace DeltaBlue

/-- A formula over strings. -/
inductive Concatenation
  /-- The constant `k`. -/
  | const (k : String)
  /-- `k` followed by all inputs. -/
  | sum (k : String)
  /-- The first input followed by `k`. -/
  | add (k : String)
  /-- The first input, its characters reversed. -/
  | reverse
  /-- The first input, which must not be empty. -/
  | nonempty
  /-- The first input. -/
  | copy
  deriving DecidableEq

namespace Concatenation

/-- The value of a formula. -/
def eval : Concatenation → List String → Except FormulaError String
  | const k, _ => .ok k
  | sum k, xs => .ok (xs.foldl (· ++ ·) k)
  | add k, x :: _ => .ok (x ++ k)
  | reverse, x :: _ => .ok (String.ofList x.toList.reverse)
  | nonempty, x :: _ => if x = "" then .error (.failed "empty") else .ok x
  | copy, x :: _ => .ok x
  | _, [] => .error (.failed "missing input")

end Concatenation

end DeltaBlue
