import CertifiedZeros.VectorField.Fisher
import CertifiedZeros.VectorField.Lorenz

/-! # Vector fields

A problem is a vector field over one of the two kinds of number, floats for a quick look and
intervals for a proof.

* **`value`**, **`derivative`** — the field and its derivative at a point of the phase space.
* **`curvature`** — the measure of the second derivative under a square matrix.
* **`lift`** — the field over intervals whose parameters are those of a float field.

Points and matrices that are given from outside have a length and a shape of their own. The checked
operations **`eval`**, **`jacobian`** and **`z2`** compare them with the dimension of the field
first. -/

namespace CertifiedZeros

/-- **A vector field** over the kind of number `α`. -/
inductive VectorField (α : Type) where
  | lorenz (p : Lorenz α)
  | fisher (p : Fisher α)

namespace VectorField

variable {α : Type}

/-- **The dimension of the phase space.** -/
def dim : VectorField α → Nat
  | .lorenz _ => 3
  | .fisher p => p.dim

/-- **The norm that points and matrices are measured in.** -/
def norm : VectorField α → PhaseNorm α
  | .lorenz _ => .max
  | .fisher p => p.norm

/-- The same field over another kind of number. -/
def map {β : Type} (f : α → β) : VectorField α → VectorField β
  | .lorenz p => .lorenz (p.map f)
  | .fisher p => .fisher (p.map f)

/-- **The field over intervals**, each parameter the interval of one number. -/
def lift (f : VectorField Float) : VectorField Interval :=
  f.map .point

/-! ## The field on its phase space -/

section PhaseSpace

variable [Zero α] [One α] [NatCast α] [Add α] [Sub α] [Neg α] [Mul α] [Div α] [Pow α Nat]
  [Magnitude α]

/-- **The field at a point.** -/
def value (f : VectorField α) (x : Vector α f.dim) : Vector α f.dim :=
  match f, x with
  | .lorenz p, x => p.value x
  | .fisher p, x => p.value x

/-- **The derivative at a point.** -/
def derivative (f : VectorField α) (x : Vector α f.dim) : Grid f.dim f.dim α :=
  match f, x with
  | .lorenz p, x => p.derivative x
  | .fisher p, x => p.derivative x

/-- **The measure of the second derivative under a square matrix.** -/
def curvature (f : VectorField α) (a : Grid f.dim f.dim α) : α :=
  match f, a with
  | .lorenz _, a => Lorenz.z2 a (Nat.lt_succ_self 2)
  | .fisher p, a => p.z2 a

end PhaseSpace

/-! ## Checked operations -/

/-- **The dimension, as a count**, refused when it is none. -/
def checkedDim (f : VectorField α) : Except Fault Nat :=
  if f.dim < countLimit then .ok f.dim else .error .tooLarge

/-- What is wrong with a length that is not the dimension of a field. -/
def lengthFault (length dim : Nat) : Fault :=
  .ofSize dim (.fieldDimension length dim)

/-- A point of the phase space of dimension `n`, refused when its length is another one. -/
def pointOfDim (n : Nat) (x : DenseVector α) : Except Fault (Vector α n) :=
  if h : x.size = n then .ok ⟨x, h⟩ else .error (lengthFault x.size n)

variable [Zero α] [One α] [NatCast α] [Add α] [Sub α] [Neg α] [Mul α] [Div α] [Pow α Nat]
  [Magnitude α]

/-- **The field at a point** of any length. -/
def eval (f : VectorField α) (x : DenseVector α) : Except Fault (DenseVector α) := do
  let v ← pointOfDim f.dim x
  return (f.value v).toArray

/-- **The derivative at a point** of any length. -/
def jacobian (f : VectorField α) (x : DenseVector α) : Except Fault (DenseMatrix α) := do
  let v ← pointOfDim f.dim x
  return .ofGrid (f.derivative v)

/-- **The convolution square** of the modes of a Fisher field. -/
def convolution (p : Fisher α) (x : DenseVector α) : Except Fault (DenseVector α) := do
  let v ← pointOfDim (p.order + 1) x
  return (Fisher.convolution v).toArray

/-- **The measure of the second derivative under a matrix** with as many rows as the field has
dimensions and any number of columns. The Lorenz system looks at the second and third column, which
have to be there; the Fisher field needs the weights of its norm. -/
def z2 (f : VectorField α) (a : DenseMatrix α) : Except Fault α :=
  match f with
  | .lorenz _ =>
    if hr : a.rows = 3 then
      if hc : 2 < a.cols then .ok (Lorenz.z2 (a.grid.castRows hr) hc) else .error .outOfRange
    else .error (lengthFault a.rows 3)
  | .fisher p =>
    if a.rows = p.dim then do
      requireRoom (p.norm.weightCount a.rows a.cols)
      return p.z2 a.grid
    else .error (lengthFault a.rows p.dim)

end VectorField

end CertifiedZeros
