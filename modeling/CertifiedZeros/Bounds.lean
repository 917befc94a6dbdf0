import CertifiedZeros.RunError
import CertifiedZeros.VectorField.Basic

/-! # Bounds of the radii polynomial

At an approximate zero `x` and with an approximate inverse `A` of the derivative there, three
numbers in the norm of the field decide about a proof:

* `y0` bounds `‖A f(x)‖`, how far `x` is from a zero,
* `z0` bounds `‖I - A Df(x)‖`, how far `A` is from an inverse,
* `z2` bounds `‖A D²f‖`, how fast the derivative changes.

**`VectorField.approximateInverse`** computes `A` in floats. **`VectorField.boundsAt`** works over
either kind of number: over floats it is an estimate, over intervals an enclosure.
**`VectorField.bounds`** checks the dimensions of its data first, and
**`VectorField.boundsAtFloats`** takes the enclosure at float data. -/

namespace CertifiedZeros

/-- **The three bounds**, over the kind of number `α`. -/
structure Bounds (α : Type) where
  y0 : α
  z0 : α
  z2 : α
deriving DecidableEq

namespace Bounds

/-- The three bounds over another kind of number. -/
def map {α β : Type} (f : α → β) (b : Bounds α) : Bounds β :=
  ⟨f b.y0, f b.z0, f b.z2⟩

/-- **The upper endpoints** of interval bounds. -/
def upper (b : Bounds Interval) : Bounds Float := b.map Interval.hi

/-- **Float bounds as intervals of one number each.** -/
def lift (b : Bounds Float) : Bounds Interval := b.map .point

end Bounds

namespace VectorField

/-- **An approximate inverse of the derivative at `x`**, in floats. Nothing rests on how good it
is, but a derivative so badly conditioned that no proof could succeed is refused: the norms of the
derivative and of its inverse have to multiply to at most `maxCondition`. -/
def approximateInverse (field : VectorField Float) (x : DenseVector Float) (maxCondition : Float) :
    Except RunError (DenseMatrix Float) := do
  let v ← RunError.pointOfDim field.dim x
  let derivative := field.derivative v
  if !derivative.isFinite then throw .notFinite
  let factors ← RunError.factored (LU.factor .binary64 derivative)
  let inverse := factors.inverse
  if !inverse.isFinite then throw .notFinite
  let condition := field.norm.ofGrid derivative * field.norm.ofGrid inverse
  if condition ≤ maxCondition then return .ofGrid inverse else throw (.illConditioned condition)

section

variable {α : Type} [Zero α] [One α] [NatCast α] [Add α] [Sub α] [Neg α] [Mul α] [Div α]
  [Pow α Nat] [Magnitude α]

/-- **The three bounds** at a point of the phase space with a square matrix. -/
def boundsAt (field : VectorField α) (x : Vector α field.dim) (a : Grid field.dim field.dim α) :
    Bounds α where
  y0 := field.norm.ofVector (a.apply (field.value x))
  z0 := field.norm.ofGrid ((Grid.identity field.dim).sub (a.mul (field.derivative x)))
  z2 := field.curvature a

/-- **The three bounds** at `x` with the matrix `a`, both of the dimension of the field. -/
def bounds (field : VectorField α) (x : DenseVector α) (a : DenseMatrix α) :
    Except RunError (Bounds α) := do
  let v ← RunError.pointOfDim field.dim x
  let g ← RunError.squareOfDim field.dim a
  return field.boundsAt v g

end

/-- **Rigorous bounds at float data**: the point and the matrix are lifted to intervals. -/
def boundsAtFloats (field : VectorField Interval) (x : DenseVector Float) (a : DenseMatrix Float) :
    Except RunError (Bounds Interval) :=
  field.bounds x.lift a.lift

end VectorField

end CertifiedZeros
