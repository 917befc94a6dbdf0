import CertifiedZeros.LU.Dense

/-! # Errors of a proof run

A run stops with a `RunError` when its setup is broken or a numerical stage fails. That a finished
run could not establish the zero is not an error but a verdict, and lives in
`CertifiedZeros.Certificate.Basic`. -/

namespace CertifiedZeros

/-- **Why a proof run stopped.** -/
inductive RunError where
  /-- A point, a matrix or a second field does not match the dimension of the field. -/
  | dimensionMismatch (expected got : Nat)
  /-- Newton's method used up its steps; `residual` is the one of the last point. -/
  | maxIterations (iterations : Nat) (residual : Float)
  /-- The derivative at a point has no factorisation. -/
  | singularJacobian
  /-- The condition estimate of the derivative exceeds the limit, or is NaN. -/
  | illConditioned (condition : Float)
  /-- A computed value is NaN or infinite. -/
  | notFinite
  /-- A calling contract inside the run was broken. -/
  | fault (cause : Fault)
deriving DecidableEq

namespace RunError

/-- **The wording of a run error.** -/
def message? : RunError → Option String
  | .dimensionMismatch expected got =>
    some s!"dimension mismatch: expected {expected}, got {got}"
  | .maxIterations iterations residual =>
    some (s!"Newton did not converge in {iterations} iterations (residual "
      ++ Binary64.scientific residual ++ ")")
  | .singularJacobian => some "Jacobian is singular"
  | .illConditioned condition =>
    some ("Jacobian is ill-conditioned (condition estimate "
      ++ Binary64.scientific condition ++ ")")
  | .notFinite => some "computed value is NaN or infinity"
  | .fault cause => cause.message?

/-- A system that could not be solved, as the error of a run: what has no pivots is the derivative
of the field. -/
def ofSolveError : SolveError → RunError
  | .singular => .singularJacobian
  | .fault cause => .fault cause

/-- A checked operation as a stage of a run. -/
def checked {α : Type} : Except Fault α → Except RunError α
  | .ok a => .ok a
  | .error cause => .error (.fault cause)

/-- The factors of a square matrix as a stage of a run. -/
def factored {α : Type} {n : Nat} : Except (LU n α) (LU n α) → Except RunError (LU n α)
  | .ok f => .ok f
  | .error _ => .error (ofSolveError .singular)

/-- **What is wrong with a dimension** that is not the expected one. A dimension that is no count is
at fault itself. -/
def mismatch (expected got : Nat) : RunError :=
  if expected < countLimit ∧ got < countLimit then .dimensionMismatch expected got
  else .fault .tooLarge

/-- **A dimension check**: nothing happens when `got` is what is expected. -/
def requireDim (expected got : Nat) : Except RunError Unit :=
  if expected = got then .ok () else .error (mismatch expected got)

/-- **A point of the phase space of dimension `n`**, refused when its length is another one. -/
def pointOfDim {α : Type} (n : Nat) (x : DenseVector α) : Except RunError (Vector α n) :=
  if h : x.size = n then .ok ⟨x, h⟩ else .error (mismatch n x.size)

/-- **A square matrix of size `n`**, refused when its rows or else its columns do not fit. -/
def squareOfDim {α : Type} (n : Nat) (a : DenseMatrix α) : Except RunError (Grid n n α) :=
  if hr : a.rows = n then
    if hc : a.cols = n then .ok (a.grid.cast hr hc) else .error (mismatch n a.cols)
  else .error (mismatch n a.rows)

end RunError

end CertifiedZeros
