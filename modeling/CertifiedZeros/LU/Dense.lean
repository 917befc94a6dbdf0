import CertifiedZeros.DenseMatrix.Basic
import CertifiedZeros.LU.Solve

/-! # Factoring and solving with dense matrices

The checked forms of the factorisation over floats. A matrix that is not square cannot be factored
at all, which is a `Fault`; a square matrix without usable pivots is `singular`.

* **`DenseMatrix.eliminated`** — the elimination with the state it ends in, finished or not.
* **`DenseMatrix.factored`** — the factors, for solving many systems.
* **`DenseMatrix.solve`**, **`DenseMatrix.inverse`** — factor and solve at once.
* **`DenseMatrix.substitute`** — both sweeps with any packed matrix and any list of row numbers. -/

namespace CertifiedZeros

/-- **Why a system could not be solved.** -/
inductive SolveError where
  /-- Shapes do not match. -/
  | fault (cause : Fault)
  /-- No pivot was large enough. -/
  | singular
deriving DecidableEq

/-- The wording of a solve error. -/
def SolveError.message? : SolveError → Option String
  | .fault cause => cause.message?
  | .singular => some "matrix is singular"

/-- The factors of a square matrix whose size is known at run time. -/
structure Factored (α : Type) where
  size : Nat
  factors : LU size α

namespace Factored

/-- **The solution of the factored system** for a right-hand side of its size. -/
def solve (f : Factored Float) (b : DenseVector Float) : Except Fault (DenseVector Float) :=
  if h : b.size = f.size then .ok (f.factors.solve ⟨b, h⟩).toArray
  else .error .rightHandSideLength

/-- The inverse of the factored matrix. -/
def inverse (f : Factored Float) : DenseMatrix Float :=
  .ofGrid f.factors.inverse

/-- The factors in one matrix, `U` from the diagonal upwards and `L` below it. -/
def packed (f : Factored Float) : DenseMatrix Float :=
  .ofGrid f.factors.packed

/-- The row numbers of the permutation. -/
def rowNumbers (f : Factored Float) : Array Nat :=
  f.factors.perm.toArray.map (·.val)

end Factored

namespace DenseMatrix

/-- **The elimination of a square matrix**, given the room for its row numbers. The error of the
inner result is the state in which a singular matrix was left. -/
def eliminated (a : DenseMatrix Float) (room : Nat) :
    Except Fault (Except (Factored Float) (Factored Float)) :=
  if h : a.rows = a.cols then
    if room = a.rows then
      match LU.factor .binary64 (a.grid.cast rfl h.symm) with
      | .ok f => .ok (.ok ⟨a.rows, f⟩)
      | .error f => .ok (.error ⟨a.rows, f⟩)
    else .error .permutationLength
  else .error .notSquare

/-- **The factors of a square matrix.** -/
def factored (a : DenseMatrix Float) : Except SolveError (Factored Float) :=
  match a.eliminated a.rows with
  | .ok (.ok f) => .ok f
  | .ok (.error _) => .error .singular
  | .error cause => .error (.fault cause)

/-- **The solution of `A x = b`.** The matrix is factored before the right-hand side is looked
at. -/
def solve (a : DenseMatrix Float) (b : DenseVector Float) :
    Except SolveError (DenseVector Float) := do
  let f ← a.factored
  match f.solve b with
  | .ok x => return x
  | .error cause => throw (.fault cause)

/-- **The inverse matrix.** -/
def inverse (a : DenseMatrix Float) : Except SolveError (DenseMatrix Float) := do
  let f ← a.factored
  return f.inverse

/-- **Both sweeps with a given packed matrix and given row numbers.** The right-hand side and the
room for the solution need the number of rows; besides, each row needs a row number in range, and
the columns have to reach the diagonal. -/
def substitute (a : DenseMatrix Float) (perm : Array Nat) (b : DenseVector Float) (room : Nat) :
    Except Fault (DenseVector Float) :=
  if hb : b.size = a.rows then
    if room = a.rows then
      if hc : a.rows ≤ a.cols then do
        let numbers ← Vector.ofFnM fun i : Fin a.rows =>
          match perm[i]? with
          | some p => if hp : p < a.rows then .ok ⟨p, hp⟩ else .error .outOfRange
          | none => .error .outOfRange
        let square : Grid a.rows a.rows Float := .ofFn fun i j => a.grid.get i (j.castLE hc)
        return (LU.backward square (LU.forward square numbers ⟨b, hb⟩)).toArray
      else .error .outOfRange
    else .error .solutionLength
  else .error .rightHandSideLength

end DenseMatrix

end CertifiedZeros
