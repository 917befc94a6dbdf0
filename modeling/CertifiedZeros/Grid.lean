import CertifiedZeros.Aggregate
import CertifiedZeros.Coordinates

/-! # Grids

A `Grid m n α` has `m` rows and `n` columns; its entries are stored one column after the other. Its
shape is part of its type, so every look-up is total and every product conforms; the matrices of
`CertifiedZeros.DenseMatrix.Basic` check shapes at run time and then work on grids.

* **`place`** — where an entry is stored; **`rowOf`** and **`columnOf`** undo it.
* **`get`**, **`ofFn`** — the entries, and the grid with given entries; each undoes the other.
* **`set`** — the grid with one entry replaced.
* **`column`**, **`ofColumns`** — a column, and the grid with given columns.
* **`cast`**, **`castRows`** — the same grid where its shape is written in another way.
* **`map`**, **`sub`**, **`identity`** — entry by entry, each with its reading lemma.
* **`accumulate`** — terms added to coordinates in place, the step that both products repeat.
* **`mul`**, **`apply`** — products, computed column by column in the storage of the result; each
  entry is a `leftSum`. -/

namespace CertifiedZeros

/-- **A matrix of known shape.** Its entries stand column after column. -/
structure Grid (m n : Nat) (α : Type) where
  data : Vector α (n * m)

namespace Grid

variable {m n k : Nat} {α β : Type}

/-! ## Places -/

theorem place_lt (i : Fin m) (j : Fin n) : j * m + i < n * m := by
  have : (j + 1) * m ≤ n * m := Nat.mul_le_mul_right m j.isLt
  have := i.isLt
  rw [Nat.succ_mul] at *
  omega

/-- **The place of row `i` in column `j`**, after the `j` columns before it. -/
def place (i : Fin m) (j : Fin n) : Fin (n * m) :=
  ⟨j * m + i, place_lt i j⟩

/-- The row that a place belongs to. -/
def rowOf (p : Fin (n * m)) : Fin m :=
  ⟨p % m, Nat.mod_lt p (Nat.pos_of_mul_pos_left (Nat.zero_lt_of_lt p.isLt))⟩

/-- The column that a place belongs to. -/
def columnOf (p : Fin (n * m)) : Fin n :=
  ⟨p / m, Nat.div_lt_of_lt_mul (Nat.mul_comm n m ▸ p.isLt)⟩

@[simp] theorem rowOf_place (i : Fin m) (j : Fin n) : rowOf (place i j) = i := by
  simp [rowOf, place, Nat.mod_eq_of_lt i.isLt]

@[simp] theorem columnOf_place (i : Fin m) (j : Fin n) : columnOf (place i j) = j := by
  have := Nat.zero_lt_of_lt i.isLt
  simp [columnOf, place, Nat.mul_comm j.val m, Nat.mul_add_div this, Nat.div_eq_of_lt i.isLt]

@[simp] theorem place_rowOf_columnOf (p : Fin (n * m)) : place (rowOf p) (columnOf p) = p := by
  simp [rowOf, columnOf, place, Nat.div_add_mod' p.val m]

/-- No two entries share a place. -/
theorem place_inj {i i' : Fin m} {j j' : Fin n} : place i j = place i' j' ↔ i = i' ∧ j = j' := by
  refine ⟨fun h => ⟨?_, ?_⟩, fun ⟨hi, hj⟩ => hi ▸ hj ▸ rfl⟩
  · rw [← rowOf_place i j, h, rowOf_place]
  · rw [← columnOf_place i j, h, columnOf_place]

/-! ## Entries -/

/-- **The entry in row `i` and column `j`.** -/
def get (a : Grid m n α) (i : Fin m) (j : Fin n) : α :=
  a.data.get (place i j)

/-- **The grid whose entry in row `i` and column `j` is `f i j`.** -/
@[inline] def ofFn (f : Fin m → Fin n → α) : Grid m n α where
  data := Vector.ofFn fun p => f (rowOf p) (columnOf p)

@[simp] theorem get_ofFn (f : Fin m → Fin n → α) (i : Fin m) (j : Fin n) :
    (ofFn f).get i j = f i j := by
  simp [get, ofFn]

/-- Grids with the same entries are equal. -/
theorem ext_get {a b : Grid m n α} (h : ∀ i j, a.get i j = b.get i j) : a = b := by
  cases a with | mk u => cases b with | mk v =>
  congr
  refine CertifiedZeros.ext_get fun p => ?_
  simpa [get] using h (rowOf p) (columnOf p)

@[simp] theorem ofFn_get (a : Grid m n α) : ofFn a.get = a :=
  ext_get fun _ _ => get_ofFn ..

/-- **The grid with another entry** in row `i` and column `j`. -/
@[inline] def set (a : Grid m n α) (i : Fin m) (j : Fin n) (v : α) : Grid m n α where
  data := a.data.set (place i j) v (place i j).isLt

protected theorem get_set (a : Grid m n α) (i i' : Fin m) (j j' : Fin n) (v : α) :
    (a.set i j v).get i' j' = if i = i' ∧ j = j' then v else a.get i' j' := by
  simp only [get, set, CertifiedZeros.get_set, place_inj]

/-- **The grid with given columns.** -/
def ofColumns (columns : Vector (Vector α m) n) : Grid m n α where
  data := columns.flatten

@[simp] theorem get_ofColumns (columns : Vector (Vector α m) n) (i : Fin m) (j : Fin n) :
    (ofColumns columns).get i j = (columns.get j).get i := by
  have hi := congrArg Fin.val (rowOf_place i j)
  have hj := congrArg Fin.val (columnOf_place i j)
  simp only [rowOf, columnOf] at hi hj
  simp only [get, ofColumns, get_eq_getElem, Vector.getElem_flatten, hi, hj]

/-- **A column.** -/
def column (a : Grid m n α) (j : Fin n) : Vector α m :=
  (a.data.extract (j * m) (j * m + m)).cast (by
    have : (j + 1) * m ≤ n * m := Nat.mul_le_mul_right m j.isLt
    rw [Nat.succ_mul] at this
    omega)

@[simp] theorem get_column (a : Grid m n α) (i : Fin m) (j : Fin n) :
    (a.column j).get i = a.get i j := by
  simp [column, get, place, get_eq_getElem]

/-- The same grid where its shape is written in another way. -/
def cast {m' n' : Nat} (hm : m = m') (hn : n = n') (a : Grid m n α) : Grid m' n' α where
  data := a.data.cast (by rw [hm, hn])

@[simp] theorem cast_rfl (a : Grid m n α) : a.cast rfl rfl = a := rfl

@[simp] theorem get_cast {m' n' : Nat} (hm : m = m') (hn : n = n') (a : Grid m n α)
    (i : Fin m') (j : Fin n') :
    (a.cast hm hn).get i j = a.get (i.cast hm.symm) (j.cast hn.symm) := by
  subst hm hn
  rfl

/-- The same grid where its number of rows is written in another way. -/
def castRows {m' : Nat} (hm : m = m') (a : Grid m n α) : Grid m' n α :=
  a.cast hm rfl

@[simp] theorem get_castRows {m' : Nat} (hm : m = m') (a : Grid m n α) (i : Fin m') (j : Fin n) :
    (a.castRows hm).get i j = a.get (i.cast hm.symm) j := by
  simp [castRows]

/-! ## Entrywise operations -/

/-- The grid of the images of the entries. -/
@[inline] def map (f : α → β) (a : Grid m n α) : Grid m n β where
  data := a.data.map f

@[simp] theorem get_map (f : α → β) (a : Grid m n α) (i : Fin m) (j : Fin n) :
    (a.map f).get i j = f (a.get i j) := by
  simp [get, map]

/-- The differences of entries. -/
def sub [Sub α] (a b : Grid m n α) : Grid m n α :=
  ofFn fun i j => a.get i j - b.get i j

@[simp] theorem get_sub [Sub α] (a b : Grid m n α) (i : Fin m) (j : Fin n) :
    (a.sub b).get i j = a.get i j - b.get i j :=
  get_ofFn ..

/-- **The identity grid.** -/
def identity [Zero α] [One α] (n : Nat) : Grid n n α :=
  ofFn fun i j => if i = j then 1 else 0

@[simp] theorem get_identity [Zero α] [One α] (i j : Fin n) :
    (identity n : Grid n n α).get i j = if i = j then 1 else 0 :=
  get_ofFn ..

/-- Whether every entry is finite. -/
def isFinite (a : Grid m n Float) : Bool := a.data.all Float.isFinite

/-! ## Products -/

/-- **Terms added in place**: `term i` to the coordinate at `position i`, one after the other. -/
@[specialize] def accumulate [Add α] {s : Nat} (position : Fin m → Fin s) (term : Fin m → α)
    (out : Vector α s) : Vector α s :=
  Fin.foldl m
    (fun out i => out.set (position i) (out.get (position i) + term i) (position i).isLt) out

/-- A coordinate takes the terms that are meant for it. -/
theorem get_accumulate [Add α] {s : Nat} (position : Fin m → Fin s) (term : Fin m → α)
    (out : Vector α s) (p : Fin s) : (accumulate position term out).get p
      = Fin.foldl m (fun acc i => if position i = p then acc + term i else acc) (out.get p) := by
  refine get_foldl (fun x i => ?_) out
  rw [get_set]
  split
  · next h => rw [h]
  · rfl

section Products

variable [Zero α] [Add α] [Mul α]

/-- **The product of two grids.** From zeros on, the columns of the first factor are added to each
column of the result in turn, times the entries of the same column of the second factor. -/
@[specialize] def mul (a : Grid m k α) (b : Grid k n α) : Grid m n α where
  data := Fin.foldl n
    (fun out j => Fin.foldl k
      (fun out l => accumulate (place · j) (fun i => a.get i l * b.get l j) out) out)
    (Vector.replicate (n * m) 0)

/-- **A grid applied to a vector**: its columns are added from zeros on, times the coordinates. -/
@[specialize] def apply (a : Grid m n α) (x : Vector α n) : Vector α m :=
  Fin.foldl n (fun out j => accumulate id (fun i => a.get i j * x.get j) out)
    (Vector.replicate m 0)

/-- **An entry of a product** is a sum over the inner dimension in order. -/
@[simp] theorem get_mul (a : Grid m k α) (b : Grid k n α) (i : Fin m) (j : Fin n) :
    (a.mul b).get i j = leftSum fun l => a.get i l * b.get l j := by
  -- a round for column `c` adds one term to entry `i` there, and leaves the other columns alone
  have hround (c : Fin n) (out : Vector α (n * m)) (l : Fin k) :
      (accumulate (place · c) (fun i => a.get i l * b.get l c) out).get (place i j)
        = if c = j then out.get (place i j) + a.get i l * b.get l j else out.get (place i j) := by
    simp only [get_accumulate, place_inj]
    split
    · next h =>
      simp only [h, and_true]
      exact foldl_ite_eq i (fun i acc => acc + a.get i l * b.get l j) _
    · next h => simp only [h, and_false, if_false, foldl_fixed]
  let sum (acc : α) : α := Fin.foldl k (fun acc l => acc + a.get i l * b.get l j) acc
  have hcolumn (out : Vector α (n * m)) (c : Fin n) :
      (Fin.foldl k (fun out l => accumulate (place · c) (fun i => a.get i l * b.get l c) out)
          out).get (place i j)
        = if c = j then sum (out.get (place i j)) else out.get (place i j) := by
    rw [get_foldl (g := fun acc l => if c = j then acc + a.get i l * b.get l j else acc) (hround c)]
    split
    · rfl
    · exact foldl_fixed _
  rw [get, mul, get_foldl (g := fun acc c => if c = j then sum acc else acc) hcolumn, get_replicate]
  exact foldl_ite_eq j (fun _ => sum) 0

/-- **A coordinate of a grid applied to a vector** is a sum over the columns in order. -/
@[simp] theorem get_apply (a : Grid m n α) (x : Vector α n) (i : Fin m) :
    (a.apply x).get i = leftSum fun j => a.get i j * x.get j := by
  have hround (out : Vector α m) (l : Fin n) :
      (accumulate id (fun i => a.get i l * x.get l) out).get i
        = out.get i + a.get i l * x.get l := by
    rw [get_accumulate]
    exact foldl_ite_eq i (fun i acc => acc + a.get i l * x.get l) (out.get i)
  rw [apply, get_foldl (g := fun acc l => acc + a.get i l * x.get l) hround, get_replicate]
  rfl

end Products

end Grid

end CertifiedZeros
