import DeltaBlue.Cell

/-!
# Arithmetic formulas

Formulas over 64-bit signed integers. They compute exactly or not at all: a step whose result does
not fit fails, and the steps are taken from left to right.
-/

namespace DeltaBlue

/-- A formula over integers. -/
inductive Arithmetic
  /-- The constant `k`. -/
  | const (k : Int64)
  /-- `k` and all inputs added. -/
  | sum (k : Int64)
  /-- The first input less the others. -/
  | sub
  /-- All inputs multiplied. -/
  | mul
  /-- The first input plus `k`. -/
  | add (k : Int64)
  /-- The first input times `k`. -/
  | scale (k : Int64)
  /-- The first input divided by the second, or by `k` if there is only one. -/
  | div (k : Int64)
  /-- The largest input. -/
  | max
  /-- The first input, which must not be negative. -/
  | nonneg
  /-- The first input. -/
  | copy
  deriving DecidableEq

namespace Arithmetic

/-- An integer that fits into 64 bits. -/
def checked (z : Int) : Except FormulaError Int64 :=
  if Int64.minValue.toInt ≤ z ∧ z ≤ Int64.maxValue.toInt then .ok (Int64.ofInt z)
  else .error (.failed "overflow")

/-- Combine a list of values from left to right with a checked operation. -/
def fold (op : Int → Int → Int) (start : Int64) (values : List Int64) :
    Except FormulaError Int64 :=
  values.foldlM (fun acc x => checked (op acc.toInt x.toInt)) start

/-- The quotient of two values, rounded toward zero. -/
def quotient (x d : Int64) : Except FormulaError Int64 :=
  if d = 0 then .error (.failed "division by zero") else checked (x.toInt.tdiv d.toInt)

/-- The value of a formula. -/
def eval : Arithmetic → List Int64 → Except FormulaError Int64
  | const k, _ => .ok k
  | sum k, xs => fold (· + ·) k xs
  | mul, xs => fold (· * ·) 1 xs
  | sub, x :: rest => fold (· - ·) x rest
  | add k, x :: _ => checked (x.toInt + k.toInt)
  | scale k, x :: _ => checked (x.toInt * k.toInt)
  | div _, x :: d :: _ => quotient x d
  | div k, [x] => quotient x k
  | max, x :: rest => .ok (rest.foldl (fun a b => if a ≤ b then b else a) x)
  | nonneg, x :: _ => if x < 0 then .error (.failed s!"negative {x}") else .ok x
  | copy, x :: _ => .ok x
  | _, [] => .error (.failed "missing input")

end Arithmetic

end DeltaBlue
