import CertifiedZeros.Grid

/-! # LU factorisation with partial pivoting

A square grid `A` is factored as `P A = L U`: `P` permutes rows, `L` is lower triangular with ones
on its diagonal, and `U` is upper triangular. Both triangles share one grid, in which the diagonal
belongs to `U`. Elimination runs over the columns:

* **`pivotRow`** — the row at or below the diagonal whose entry in the column is largest.
* **`swapRows`** — the pivot row is exchanged with the diagonal row, multipliers included.
* **`eliminate`** — the multipliers of the column, and what is left of the columns to its right.
* **`step`** — one column; it is refused when the pivot is not clearly above the rounding noise.
* **`factor`** — all columns in order. -/

namespace CertifiedZeros

/-- **When a pivot is accepted**: it has to be finite and above `epsilon · s · n`, where `s` is the
largest entry of the matrix and `n` its size. -/
structure PivotRule (α : Type) where
  epsilon : α
  isFinite : α → Bool

/-- The rule for floats, with the rounding unit of the format. -/
def PivotRule.binary64 : PivotRule Float where
  epsilon := Binary64.epsilon
  isFinite := Float.isFinite

/-- **A state of the elimination.** `packed` holds the multipliers below the diagonal of the
columns that are done, and everything else as it stands; row `i` of it comes from row `perm.get i`
of the matrix. `even` tells whether the number of exchanges was even. -/
structure LU (n : Nat) (α : Type) where
  packed : Grid n n α
  perm : Vector (Fin n) n
  even : Bool

namespace LU

variable {n : Nat} {α : Type}

/-- The state before the first column. -/
def start (a : Grid n n α) : LU n α where
  packed := a
  perm := Vector.ofFn id
  even := true

/-- The magnitude of the largest entry, column after column. -/
@[specialize] def largestEntry [Zero α] [Magnitude α] (a : Grid n n α) : α :=
  Fin.foldl n (fun acc j =>
    Fin.foldl n (fun acc i => Magnitude.larger acc (Magnitude.abs (a.get i j))) acc) 0

/-- **The pivot threshold** `epsilon · s · n`. It scales with the matrix, so that small entries are
no sign of singularity. -/
@[specialize] def threshold [Zero α] [NatCast α] [Mul α] [Magnitude α] (rule : PivotRule α)
    (a : Grid n n α) : α :=
  rule.epsilon * largestEntry a * (n : α)

/-- **The pivot row**: the first row, from the diagonal downwards, whose entry in the column is
largest in magnitude. An entry that compares with none, such as NaN, is never taken for a larger
one. -/
@[specialize] def pivotRow [LT α] [DecidableLT α] [Magnitude α] (s : LU n α) (col : Fin n) :
    Fin n :=
  Fin.foldl n (fun best row =>
    if col < row ∧ Magnitude.abs (s.packed.get best col) < Magnitude.abs (s.packed.get row col)
    then row else best) col

/-- **Two rows exchanged**, over all columns. -/
def swapRows (s : LU n α) (p q : Fin n) : LU n α :=
  if p = q then s
  else
    { packed := .ofColumns (Vector.ofFn fun j => (s.packed.column j).swap p q p.isLt q.isLt)
      perm := s.perm.swap p q p.isLt q.isLt
      even := !s.even }

theorem get_swapRows (s : LU n α) (p q i j : Fin n) :
    (s.swapRows p q).packed.get i j = s.packed.get (exchanged p q i) j := by
  by_cases h : p = q
  · subst h
    simp [swapRows]
  · simp [swapRows, h, get_swap]

theorem perm_swapRows (s : LU n α) (p q i : Fin n) :
    (s.swapRows p q).perm.get i = s.perm.get (exchanged p q i) := by
  by_cases h : p = q
  · subst h
    simp [swapRows]
  · simp [swapRows, h, get_swap]

/-- **The multipliers of a column**: below the diagonal its entries are scaled by the reciprocal
pivot; at the diagonal and above they stay. -/
@[specialize] def multipliers [One α] [Mul α] [Div α] (a : Grid n n α) (col : Fin n) :
    Vector α n :=
  let scale := 1 / a.get col col
  Vector.ofFn fun i => if i ≤ col then a.get i col else a.get i col * scale

/-- **One column eliminated.** The column becomes its multipliers. From each column to the right,
its entry in the pivot row times the multipliers is taken away below the diagonal, unless that
entry is zero. -/
@[specialize] def eliminate [Zero α] [One α] [Sub α] [Mul α] [Div α] [BEq α] (a : Grid n n α)
    (col : Fin n) : Grid n n α :=
  let factors := multipliers a col
  .ofColumns (Vector.ofFn fun j =>
    if j < col then a.column j
    else if j = col then factors
    else
      let top := a.get col j
      if top == 0 then a.column j
      else Vector.ofFn fun i => if i ≤ col then a.get i j else a.get i j - factors.get i * top)

theorem get_eliminate [Zero α] [One α] [Sub α] [Mul α] [Div α] [BEq α] (a : Grid n n α)
    (col i j : Fin n) :
    (eliminate a col).get i j =
      if i ≤ col ∨ j < col then a.get i j
      else if j = col then a.get i col * (1 / a.get col col)
      else if a.get col j == 0 then a.get i j
      else a.get i j - a.get i col * (1 / a.get col col) * a.get col j := by
  simp only [eliminate, multipliers, Grid.get_ofColumns, get_ofFn]
  by_cases hj : j < col
  · simp [hj]
  · by_cases hc : j = col
    · subst hc
      simp
    · by_cases ht : a.get col j == 0
      · simp [hj, hc, ht]
      · by_cases hi : i ≤ col <;> simp [hj, hc, ht, hi]

variable [Zero α] [One α] [NatCast α] [Sub α] [Mul α] [Div α] [BEq α] [LT α] [DecidableLT α]
  [Magnitude α]

/-- **One step of the elimination**, refused with the state as it stands when the pivot is not
above the threshold or not finite. -/
@[specialize] def step (rule : PivotRule α) (threshold : α) (s : LU n α) (col : Fin n) :
    Except (LU n α) (LU n α) :=
  let row := s.pivotRow col
  let pivot := Magnitude.abs (s.packed.get row col)
  if threshold < pivot ∧ rule.isFinite pivot then
    let t := s.swapRows col row
    .ok { t with packed := eliminate t.packed col }
  else .error s

/-- **The factorisation of a square grid.** A singular grid gives the state in which the
elimination stopped as the error. -/
@[specialize] def factor (rule : PivotRule α) (a : Grid n n α) : Except (LU n α) (LU n α) :=
  Fin.foldlM n (step rule (threshold rule a)) (start a)

end LU

end CertifiedZeros
