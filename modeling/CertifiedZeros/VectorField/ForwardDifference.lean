import CertifiedZeros.VectorField.Basic

/-! # Forward differences

A check on derivatives written by hand: each coordinate in turn is moved by a small step, and the
change of the map over the step approximates a column of its derivative. The step is `2 ^ (-26)`
times the coordinate, or times one for small coordinates.

The map is called once at the point itself and then once for each coordinate. It is given as a
**`Procedure`**, which may remember its calls, answer vectors of any length, and stop.

* **`differenceStep`**, **`perturbed`** — the step in a coordinate, and the point that takes it.
* **`writeColumn`**, **`writeColumns`** — one column from one answer, and all columns.
* **`forwardDifference`** — the matrix of the columns, with as many rows as the answer at the point
  itself is long. -/

namespace CertifiedZeros

variable {m n : Nat} {σ : Type}

/-- **A map that is called**, on points with `n` coordinates. A call answers a vector and leaves a
state for the next one, or it stops with a fault. -/
abbrev Procedure (σ : Type) (n : Nat) :=
  Vector Float n → StateT σ (Except Fault) (DenseVector Float)

/-- A map without a state as a procedure. -/
def Procedure.ofMap (f : Vector Float n → Except Fault (DenseVector Float)) : Procedure Unit n :=
  fun x => StateT.lift (f x)

/-- The step in a coordinate. -/
def differenceStep (x : Float) : Float :=
  Binary64.sqrtEpsilon * Binary64.larger x.abs 1

/-- A point with one coordinate moved by its step. -/
def perturbed (x : Vector Float n) (j : Fin n) : Vector Float n :=
  x.set j (x.get j + differenceStep (x.get j)) j.isLt

/-- **Column `j` from an answer**: the change from `here` to `there` over the step `h`, entry by
entry. The answer has to reach as far as `here`; what goes beyond is not looked at. -/
def writeColumn (here : Vector Float m) (h : Float) (there : DenseVector Float) (j : Fin n)
    (a : Grid m n Float) : Except Fault (Grid m n Float) :=
  Fin.foldlM m
    (fun a i => do
      let y ← there.entry i
      return a.set i j ((y - here.get i) / h)) a

/-- **All columns**, column `j` from a call of `f` at the point with coordinate `j` moved. -/
def writeColumns (f : Procedure σ n) (x : Vector Float n) (here : DenseVector Float) :
    StateT σ (Except Fault) (Grid here.size n Float) :=
  Fin.foldlM n
    (fun a j => do
      let there ← f (perturbed x j)
      writeColumn ⟨here, rfl⟩ (differenceStep (x.get j)) there j a)
    ⟨Vector.replicate (n * here.size) 0⟩

/-- **The derivative of `f` at `x` by forward differences.** -/
def forwardDifference (f : Procedure σ n) (x : Vector Float n) :
    StateT σ (Except Fault) (DenseMatrix Float) := do
  let here ← f x
  requireRoom (here.size * n)
  let columns ← writeColumns f x here
  return .ofGrid columns

/-- **The derivative of a linear map** at a point, by forward differences. -/
def DenseMatrix.forwardJacobian (a : DenseMatrix Float) (x : DenseVector Float) :
    Except Fault (DenseMatrix Float) :=
  (forwardDifference (.ofMap fun v => a.apply v.toArray) ⟨x, rfl⟩).run' ()

/-- **The derivative of a vector field** at a point, by forward differences. -/
def VectorField.forwardJacobian (f : VectorField Float) (x : DenseVector Float) :
    Except Fault (DenseMatrix Float) :=
  (forwardDifference (.ofMap fun v => f.eval v.toArray) ⟨x, rfl⟩).run' ()

end CertifiedZeros
