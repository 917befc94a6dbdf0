import CertifiedZeros.Capacity
import CertifiedZeros.Grid
import CertifiedZeros.Interval.Arithmetic

/-! # Dense matrices and vectors

A `DenseMatrix` carries its shape as data, and a `DenseVector` its length. Operations whose operands
have to match check that first and answer a `Fault` otherwise; then they work on grids, where
nothing can go wrong. A shape without entries may be of any size, so an operation that makes entries
where its operands have none checks that there is room for them.

* **`ofColumns`**, **`ofRows`** — a matrix from a list of entries that has to fill it.
* **`zeros`**, **`identity`** — matrices of a given size.
* **`entry`**, **`setEntry`** — look-up and change by row and column.
* **`cell`**, **`setCell`** — the same by place in the column-after-column order, where a row
  number beyond the last row runs on into the next column.
* **`lift`** — every entry as the interval of one number. -/

namespace CertifiedZeros

/-- **A matrix whose shape is known when it is used.** -/
structure DenseMatrix (α : Type) where
  rows : Nat
  cols : Nat
  grid : Grid rows cols α

/-- **A point of a phase space**: its coordinates in order. -/
abbrev DenseVector (α : Type) := Array α

namespace DenseMatrix

variable {α β : Type}

/-- The matrix of a grid. -/
def ofGrid {m n : Nat} (g : Grid m n α) : DenseMatrix α := ⟨m, n, g⟩

/-- The entries, column after column. -/
def data (a : DenseMatrix α) : Array α := a.grid.data.toArray

/-- Matrices are equal when they have one shape and their entries are equal as numbers. -/
instance [BEq α] : BEq (DenseMatrix α) :=
  ⟨fun a b => a.rows == b.rows && a.cols == b.cols && a.data == b.data⟩

/-! ## Making matrices -/

/-- **A matrix from its entries by columns.** -/
def ofColumns (rows cols : Nat) (data : Array α) : Except Fault (DenseMatrix α) :=
  if h : data.size = cols * rows then .ok ⟨rows, cols, ⟨⟨data, h⟩⟩⟩
  else .error (.ofSize (rows * cols) (.columnDataLength data.size rows cols))

/-- **A matrix from its entries by rows.** -/
def ofRows (rows cols : Nat) (data : Array α) : Except Fault (DenseMatrix α) :=
  if h : data.size = rows * cols then
    .ok ⟨rows, cols, .ofFn fun i j =>
      have : i.val * cols + j.val < data.size := h ▸ Grid.place_lt j i
      data[i.val * cols + j.val]⟩
  else .error (.ofSize (rows * cols) (.rowDataLength data.size rows cols))

/-- **The matrix of zeros.** -/
def zeros [Zero α] (rows cols : Nat) : Except Fault (DenseMatrix α) := do
  requireRoom (rows * cols)
  return ⟨rows, cols, ⟨Vector.replicate (cols * rows) 0⟩⟩

/-- **The identity matrix.** -/
def identity [Zero α] [One α] (n : Nat) : Except Fault (DenseMatrix α) := do
  requireRoom (n * n)
  return ofGrid (.identity n)

/-! ## Looking up and changing entries -/

/-- Whether a matrix has as many rows as columns. -/
def isSquare (a : DenseMatrix α) : Bool := a.rows == a.cols

/-- **The entry in row `i` and column `j`.** -/
def entry (a : DenseMatrix α) (i j : Nat) : Except Fault α :=
  if h : i < a.rows ∧ j < a.cols then .ok (a.grid.get ⟨i, h.1⟩ ⟨j, h.2⟩)
  else .error .outOfRange

/-- **The entry at a place**, `j` columns and `i` rows into the column-after-column order. -/
def cell (a : DenseMatrix α) (i j : Nat) : Except Fault α :=
  if h : j * a.rows + i < a.cols * a.rows then .ok (a.grid.data.get ⟨j * a.rows + i, h⟩)
  else .error .outOfRange

/-- The matrix with another entry at a place of the column-after-column order. -/
def setCell (a : DenseMatrix α) (i j : Nat) (x : α) : Except Fault (DenseMatrix α) :=
  if h : j * a.rows + i < a.cols * a.rows then
    .ok ⟨a.rows, a.cols, ⟨a.grid.data.set (j * a.rows + i) x h⟩⟩
  else .error .outOfRange

/-- The matrix with another entry in row `i` and column `j`. -/
def setEntry (a : DenseMatrix α) (i j : Nat) (x : α) : Except Fault (DenseMatrix α) :=
  if i < a.rows ∧ j < a.cols then a.setCell i j x else .error .outOfRange

/-! ## Entrywise operations -/

/-- The matrix of the images of the entries. -/
def map (f : α → β) (a : DenseMatrix α) : DenseMatrix β := ofGrid (a.grid.map f)

/-- The negatives of the entries. -/
def neg [Neg α] (a : DenseMatrix α) : DenseMatrix α := a.map (- ·)

instance [Neg α] : Neg (DenseMatrix α) := ⟨neg⟩

/-- **Every entry as the interval of one number.** -/
def lift (a : DenseMatrix Float) : DenseMatrix Interval := a.map .point

/-- Whether every entry is finite. -/
def isFinite (a : DenseMatrix Float) : Bool := a.grid.isFinite

/-! ## Differences and products -/

/-- **The difference of two matrices of one shape.** -/
def sub [Sub α] (a b : DenseMatrix α) : Except Fault (DenseMatrix α) :=
  if h : b.rows = a.rows ∧ b.cols = a.cols then
    .ok (ofGrid (a.grid.sub (b.grid.cast h.1 h.2)))
  else .error (.differenceShapes a.rows a.cols b.rows b.cols)

/-- **The product of two matrices** whose inner dimensions agree. -/
def mul [Zero α] [Add α] [Mul α] (a b : DenseMatrix α) : Except Fault (DenseMatrix α) :=
  if h : b.rows = a.cols then do
    requireRoom (a.rows * b.cols)
    return ofGrid (a.grid.mul (b.grid.castRows h))
  else .error (.productShapes a.rows a.cols b.rows b.cols)

/-- **A matrix applied to a vector** as long as its rows. -/
def apply [Zero α] [Add α] [Mul α] (a : DenseMatrix α) (x : DenseVector α) :
    Except Fault (DenseVector α) :=
  if h : x.size = a.cols then do
    requireRoom a.rows
    return (a.grid.apply ⟨x, h⟩).toArray
  else .error (.applicationShapes a.rows a.cols x.size)

end DenseMatrix

namespace DenseVector

variable {α : Type}

/-- **The vector of zeros.** -/
def zeros [Zero α] (n : Nat) : Except Fault (DenseVector α) := do
  requireRoom n
  return Array.replicate n 0

/-- **The coordinate at `i`.** -/
def entry (x : DenseVector α) (i : Nat) : Except Fault α :=
  match x[i]? with
  | some a => .ok a
  | none => .error .outOfRange

/-- The vector with another coordinate at `i`. -/
def setEntry (x : DenseVector α) (i : Nat) (a : α) : Except Fault (DenseVector α) :=
  if h : i < x.size then .ok (x.set i a h) else .error .outOfRange

/-- **The difference of two vectors of one length.** Its fault speaks of single rows. -/
def sub [Sub α] (x y : DenseVector α) : Except Fault (DenseVector α) :=
  if x.size = y.size then .ok (x.zipWith (· - ·) y)
  else .error (.differenceShapes 1 x.size 1 y.size)

/-- **Every coordinate as the interval of one number.** -/
def lift (x : DenseVector Float) : DenseVector Interval := x.map .point

/-- Whether every coordinate is finite. -/
def isFinite (x : DenseVector Float) : Bool := x.all Float.isFinite

end DenseVector

end CertifiedZeros
