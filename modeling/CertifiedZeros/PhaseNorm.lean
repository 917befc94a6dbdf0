import CertifiedZeros.DenseMatrix.Basic

/-! # Norms on the phase space

A problem measures points of its phase space and matrices that act on it with one and the same
norm. Each norm has a vector form and an operator form:

* **`max`** — the largest coordinate; on matrices the largest row sum.
* **`sum`** — the sum of coordinates; on matrices the largest column sum.
* **`cosine ν`** — the sum with the weights of a cosine series, `1` at the constant mode and
  `2 · ν ^ k` at mode `k`; on matrices the largest weighted column sum, over the weight of the
  column.
* **`entrywise`** — the sum of coordinates; on matrices the sum of all entries, which stands in for
  the largest column sum.

Absolute values are understood throughout. The ratio `ν` has the kind of number that the norm is
taken over. -/

namespace CertifiedZeros

/-- **A norm on the phase space**, over the kind of number `α`. -/
inductive PhaseNorm (α : Type) where
  | max
  | sum
  | cosine (ratio : α)
  | entrywise
deriving DecidableEq

namespace PhaseNorm

variable {α β : Type}

/-- The norm used where none is asked for. -/
def standard : PhaseNorm α := .max

/-- The same norm over another kind of number. -/
def map (f : α → β) : PhaseNorm α → PhaseNorm β
  | .max => .max
  | .sum => .sum
  | .cosine ratio => .cosine (f ratio)
  | .entrywise => .entrywise

/-- **The weight of mode `k`** in a cosine series of ratio `ν`: `1`, then `2 · ν ^ k`, because each
mode but the constant one stands for itself and its reflection. -/
def cosineWeight [One α] [NatCast α] [Mul α] [Pow α Nat] (ratio : α) (k : Nat) : α :=
  if k = 0 then 1 else ((2 : Nat) : α) * ratio ^ k

variable [Zero α] [One α] [NatCast α] [Add α] [Mul α] [Div α] [Pow α Nat] [Magnitude α]

/-- **The norm of a vector.** -/
def ofVector {n : Nat} (norm : PhaseNorm α) (x : Vector α n) : α :=
  match norm with
  | .max => leftMax fun i : Fin n => Magnitude.abs (x.get i)
  | .sum | .entrywise => leftSum fun i : Fin n => Magnitude.abs (x.get i)
  | .cosine ratio => leftSum fun i : Fin n => cosineWeight ratio i * Magnitude.abs (x.get i)

/-- **The norm of a grid** as an operator on vectors. The entrywise sum runs over the columns in
order, through one accumulator. -/
def ofGrid {m n : Nat} (norm : PhaseNorm α) (a : Grid m n α) : α :=
  match norm with
  | .max => leftMax fun i => leftSum fun j => Magnitude.abs (a.get i j)
  | .sum => leftMax fun j => leftSum fun i => Magnitude.abs (a.get i j)
  | .cosine ratio =>
    let weights := Vector.ofFn fun k : Fin (Nat.max m n) => cosineWeight ratio k
    leftMax fun j =>
      (leftSum fun i => weights.get (i.castLE (Nat.le_max_left m n)) * Magnitude.abs (a.get i j))
        / weights.get (j.castLE (Nat.le_max_right m n))
  | .entrywise => leftSum fun p => Magnitude.abs (a.data.get p)

/-- The norm of a vector of any length. -/
def vector (norm : PhaseNorm α) (x : DenseVector α) : α :=
  norm.ofVector x.toVector

/-- How many weights the norm of a matrix needs at once. -/
def weightCount (norm : PhaseNorm α) (rows cols : Nat) : Nat :=
  match norm with
  | .cosine _ => Nat.max rows cols
  | _ => 0

/-- **The norm of a matrix of any shape, as an operator.** There has to be room for its weights. -/
def operator (norm : PhaseNorm α) (a : DenseMatrix α) : Except Fault α := do
  requireRoom (norm.weightCount a.rows a.cols)
  return norm.ofGrid a.grid

end PhaseNorm

end CertifiedZeros
