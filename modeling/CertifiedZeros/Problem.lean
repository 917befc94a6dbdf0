import CertifiedZeros.Certificate.Basic
import CertifiedZeros.Newton

/-! # Problems and their proofs

A problem is a field over floats together with a field over intervals that encloses it. Its proof
runs from a starting point to a report in four stages: Newton's method finds an approximate zero,
the derivative there is inverted approximately, the bounds are enclosed, and the certifier tests
them. The first two stages work with the float field, the others with the interval field.

* **`Problem.ofField`** — a float field with its lift, its parameters taken as they are.
* **`Problem.prove`** — the four stages. -/

namespace CertifiedZeros

/-- **A problem.** The interval field is given apart from the float field, so that it can enclose
parameters that are no floats. -/
structure Problem where
  plain : VectorField Float
  rigorous : VectorField Interval

namespace Problem

/-- The problem of a float field whose parameters are meant exactly. -/
def ofField (field : VectorField Float) : Problem :=
  ⟨field, field.lift⟩

/-- **Settings of a proof.** -/
structure Settings where
  newton : Newton.Settings := {}
  witness : Witness := .midpoint
  /-- The limit on the condition estimate of the derivative. -/
  maxCondition : Float := 1e12
deriving DecidableEq

/-- **A finished proof**: the approximate zero, the Newton steps it took, and what the certifier
found around it. -/
structure Proof where
  point : DenseVector Float
  iterations : Nat
  report : Report
deriving DecidableEq

/-- **The proof of a problem** from a starting point. -/
def prove (problem : Problem) (start : DenseVector Float) (settings : Settings) :
    Except RunError Proof := do
  RunError.requireDim problem.plain.dim problem.rigorous.dim
  let solution ← Newton.solve problem.plain start settings.newton
  let inverse ← problem.plain.approximateInverse solution.point settings.maxCondition
  let enclosed ← problem.rigorous.boundsAtFloats solution.point inverse
  let report ← RunError.checked (enclosed.certify settings.witness)
  return ⟨solution.point, solution.iterations, report⟩

end Problem

end CertifiedZeros
