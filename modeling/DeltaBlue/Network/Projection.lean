import DeltaBlue.Operations

/-!
# Projections

A projection relates a source to its scaled and shifted image. The scale and the offset are kept by
required constraints, and the relation can be solved for the image or for the source.
-/

namespace DeltaBlue

/-- Arithmetic for projections. -/
structure Scaling (T : Type) where
  /-- The value of a number. -/
  ofNat : Nat → T
  /-- The image of a source under a scale and an offset. -/
  image : T → T → T → T
  /-- The source of an image under a scale and an offset. -/
  source : T → T → T → Except FormulaError T

/-- Projections of 64-bit integers. Products and sums wrap around, and the source is rounded toward
zero. -/
def Scaling.int64 : Scaling Int64 where
  ofNat n := Int64.ofNat n
  image src scale offset := src * scale + offset
  source dst scale offset :=
    if scale = 0 then .error (.failed "zero scale") else .ok ((dst - offset) / scale)

/-- The parts of a projection. -/
structure Projection where
  /-- The source. -/
  src : VarId
  /-- The factor. -/
  scale : VarId
  /-- The shift. -/
  offset : VarId
  /-- The image. -/
  dst : VarId
  /-- The relation between them. -/
  constraint : ConstraintId
  deriving DecidableEq

namespace SolveM

variable {W T : Type}

/-- A computation over three values. -/
def onThree (f : T → T → T → Except FormulaError T) : Compute W T := fun values w =>
  match values with
  | [a, b, c] => (f a b c, w)
  | _ => (.error (.arity 3 values.length), w)

/-- Make a projection with a relation of the given strength. -/
def projection (fuel : Nat) (rule : Scaling T) (src scale offset : T) (strength : Strength) :
    SolveM W T Projection := do
  let src ← newVariable src
  let scale ← newVariable scale
  let offset ← newVariable offset
  let dst ← newVariable (rule.ofNat 0)
  let _ ← stay fuel scale .required
  let _ ← stay fuel offset .required
  let d ← declare strength
    [.fallibleFormula dst [src, scale, offset] (onThree fun s k o => .ok (rule.image s k o)),
      .fallibleFormula src [dst, scale, offset] (onThree rule.source)]
  return ⟨src, scale, offset, dst, ← constrain fuel d⟩

/-- Make `count` projections with scale 10 and offset 1000, counted from source `i` on, each with a
source that weakly stays. -/
def projectionsFrom (fuel : Nat) (rule : Scaling T) (i : Nat) :
    Nat → SolveM W T (List Projection)
  | 0 => return []
  | count + 1 => do
    let p ← projection fuel rule (rule.ofNat i) (rule.ofNat 10) (rule.ofNat 1000) .required
    let _ ← stay fuel p.src .weak
    return p :: (← projectionsFrom fuel rule (i + 1) count)

end SolveM

end DeltaBlue
