import CertifiedZeros.RunError
import CertifiedZeros.VectorField.Basic

/-! # Newton's method

From a starting point, each step solves `Df(x) u = f(x)` and goes on to `x - u`. The residual, a
norm of `f(x)`, is measured before every step and after the last one; the first point whose
residual lies below the tolerance is the answer.

* **`Newton.Settings`** — tolerance, limit on the steps, and the norm of the residual.
* **`Newton.residual`** — the measurement, which refuses values that are not finite.
* **`Newton.iterate`** — the steps; **`Newton.solve`** — the same after a check of the
  dimension. -/

namespace CertifiedZeros.Newton

/-- **Settings of Newton's method.** The norm of the residual is independent of the norm that the
field is measured in. -/
structure Settings where
  tolerance : Float := 1e-10
  maxIterations : Nat := 100
  norm : PhaseNorm Float := .max
deriving DecidableEq

/-- **A point that Newton's method arrived at**, with its residual and the number of steps. -/
structure Solution where
  point : DenseVector Float
  residual : Float
  iterations : Nat
deriving DecidableEq

/-- The residual of a value of the field, refused when a coordinate is not finite. -/
def residual {n : Nat} (norm : PhaseNorm Float) (value : Vector Float n) :
    Except RunError Float :=
  if value.all Float.isFinite then .ok (norm.ofVector value) else .error .notFinite

/-- **One Newton step** from `x`, where the field has the given value. -/
def step (field : VectorField Float) (x value : Vector Float field.dim) :
    Except RunError (Vector Float field.dim) := do
  let factors ← RunError.factored (LU.factor .binary64 (field.derivative x))
  return x.zipWith (· - ·) (factors.solve value)

/-- **The iteration** at the point `x`, after `done` steps and with at most `left` more. -/
def iterate (field : VectorField Float) (settings : Settings) (left done : Nat)
    (x : Vector Float field.dim) : Except RunError Solution := do
  let value := field.value x
  let residual ← residual settings.norm value
  if residual < settings.tolerance then return ⟨x.toArray, residual, done⟩
  match left with
  | 0 => throw (.maxIterations done residual)
  | left + 1 =>
    let next ← step field x value
    iterate field settings left (done + 1) next

/-- **Newton's method** from a starting point of the dimension of the field. -/
def solve (field : VectorField Float) (start : DenseVector Float) (settings : Settings) :
    Except RunError Solution := do
  let x ← RunError.pointOfDim field.dim start
  iterate field settings settings.maxIterations 0 x

end CertifiedZeros.Newton
