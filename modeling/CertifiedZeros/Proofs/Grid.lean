import CertifiedZeros.Grid
import CertifiedZeros.Proofs.Aggregate
import Mathlib.LinearAlgebra.Matrix.NonsingularInverse

/-! # Grids as matrices

In exact arithmetic a grid is a matrix, and its products are those of matrices.

* **`toMatrix`** — the matrix with the same entries; different grids have different matrices.
* **`toMatrix_mul`**, **`toMatrix_identity`**, **`get_apply_eq_mulVec`** — products and the identity;
  **`apply_mul`** — a product applied to a vector.
* **`apply_injective`** — a determinant other than zero makes solutions unique. -/

namespace CertifiedZeros.Grid

variable {R : Type} {m n k : ℕ}

/-- **The matrix with the entries of a grid.** -/
def toMatrix (a : Grid m n R) : Matrix (Fin m) (Fin n) R := .of a.get

@[simp] theorem toMatrix_apply (a : Grid m n R) (i : Fin m) (j : Fin n) :
    a.toMatrix i j = a.get i j := rfl

theorem toMatrix_inj {a b : Grid m n R} : a.toMatrix = b.toMatrix ↔ a = b := by
  refine ⟨fun h => ext_get fun i j => ?_, congrArg toMatrix⟩
  exact congrFun (congrFun h i) j

variable [CommRing R]

theorem toMatrix_mul (a : Grid m k R) (b : Grid k n R) :
    (a.mul b).toMatrix = a.toMatrix * b.toMatrix := by
  ext i j
  rw [toMatrix_apply, get_mul, leftSum_eq_sum, Matrix.mul_apply]
  rfl

theorem toMatrix_identity : (identity n : Grid n n R).toMatrix = 1 := by
  ext i j
  rw [toMatrix_apply, get_identity, Matrix.one_apply]

/-- **A grid applied to a vector** is a matrix applied to its coordinates. -/
theorem get_apply_eq_mulVec (a : Grid m n R) (x : Vector R n) :
    (a.apply x).get = a.toMatrix.mulVec x.get := by
  funext i
  rw [get_apply, leftSum_eq_sum, Matrix.mulVec, dotProduct]
  rfl

/-- **Applying a product** is applying its factors in turn. -/
theorem apply_mul (a : Grid m k R) (b : Grid k n R) (x : Vector R n) :
    (a.mul b).apply x = a.apply (b.apply x) := by
  refine CertifiedZeros.ext_get fun i => ?_
  rw [get_apply_eq_mulVec, get_apply_eq_mulVec, get_apply_eq_mulVec, toMatrix_mul,
    Matrix.mulVec_mulVec]

/-- **A grid with a determinant other than zero** takes different vectors to different vectors. -/
theorem apply_injective {K : Type} [Field K] {a : Grid n n K} (h : a.toMatrix.det ≠ 0) :
    Function.Injective a.apply := by
  intro x y hxy
  have hunit : IsUnit a.toMatrix := by
    rwa [Matrix.isUnit_iff_isUnit_det, isUnit_iff_ne_zero]
  refine CertifiedZeros.ext_get fun i => congrFun (Matrix.mulVec_injective_iff_isUnit.mpr hunit ?_) i
  rw [← get_apply_eq_mulVec, ← get_apply_eq_mulVec, hxy]

/-- A left inverse of a square grid is a right inverse. -/
theorem mul_eq_identity_comm {a b : Grid n n R} :
    a.mul b = identity n ↔ b.mul a = identity n := by
  rw [← toMatrix_inj, ← toMatrix_inj, toMatrix_mul, toMatrix_mul, toMatrix_identity]
  exact mul_eq_one_comm

end CertifiedZeros.Grid
