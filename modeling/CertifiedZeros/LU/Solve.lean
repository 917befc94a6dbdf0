import CertifiedZeros.LU.Basic

/-! # Solving with a factorisation

With `P A = L U`, the system `A x = b` is solved in two sweeps: `L y = P b` from the first row
down, then `U x = y` from the last row up. Each sweep subtracts from the right-hand side what the
coordinates found so far contribute, in the order of the columns.

* **`forward`**, **`backward`** — the two sweeps.
* **`LU.solve`** — both in turn; **`LU.inverse`** — the solutions for the unit vectors. -/

namespace CertifiedZeros

variable {n : Nat} {α : Type} [Zero α] [Sub α] [Mul α]

namespace LU

/-- Number `j` of the columns to the left of column `i`. -/
def leftOf (i : Fin n) (j : Fin i) : Fin n :=
  ⟨j, by omega⟩

/-- Number `t` of the columns to the right of column `i`. -/
def rightOf (i : Fin n) (t : Fin (n - (i + 1))) : Fin n :=
  ⟨i + 1 + t, by omega⟩

/-- **Forward substitution**: `y` with `L y = P b`, where `L` is the part of `packed` below the
diagonal, with ones on it. -/
@[specialize] def forward (packed : Grid n n α) (perm : Vector (Fin n) n) (b : Vector α n) :
    Vector α n :=
  Fin.foldl n (fun y i =>
    y.set i (Fin.foldl i (fun acc j =>
      acc - packed.get i (leftOf i j) * y.get (leftOf i j)) (b.get (perm.get i))) i.isLt)
    (Vector.replicate n 0)

/-- **Backward substitution**: `x` with `U x = y`, where `U` is the part of `packed` from the
diagonal upwards. -/
@[specialize] def backward [Div α] (packed : Grid n n α) (y : Vector α n) : Vector α n :=
  Fin.foldr n (fun i x =>
    x.set i (Fin.foldl (n - (i + 1)) (fun acc t =>
      acc - packed.get i (rightOf i t) * x.get (rightOf i t)) (x.get i) / packed.get i i) i.isLt)
    y

/-- **The solution** of `A x = b`, given the factors of `A`. -/
@[specialize] def solve [Div α] (f : LU n α) (b : Vector α n) : Vector α n :=
  backward f.packed (forward f.packed f.perm b)

/-- The unit vector in direction `j`. -/
def unit [One α] (j : Fin n) : Vector α n :=
  Vector.ofFn fun i => if i = j then 1 else 0

/-- **The inverse matrix**, column by column the solution for a unit vector. -/
@[specialize] def inverse [One α] [Div α] (f : LU n α) : Grid n n α :=
  .ofColumns (Vector.ofFn fun j => f.solve (unit j))

end LU

end CertifiedZeros
