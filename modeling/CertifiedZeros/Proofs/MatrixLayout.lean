import CertifiedZeros.DenseMatrix.Basic
import Mathlib.Data.Fin.Basic

/-! # The layout of matrices and of their products

A matrix is made from its entries in the order of rows or of columns, and stored by columns. Its
products are computed in that storage. This file says where each entry ends up, for entries of any
kind, so that the two products agree to the last bit:

* **`column`** — a column as a stretch of the storage.
* **`Lists`** — a list that holds the entries of a matrix in some order; **`ofRows_eq_ok_iff`** and
  **`ofColumns_eq_ok_iff`** say what matrices are made of.
* **`IsProduct`** — the columns and entries of a product, and its list of entries by rows.
* **`mul_layout`** — when products exist, and what they hold. -/

namespace CertifiedZeros

/-- A column of a product is the first factor applied to that column of the second. -/
theorem Grid.column_mul {α : Type} {m k n : ℕ} [Zero α] [Add α] [Mul α] (a : Grid m k α)
    (b : Grid k n α) (j : Fin n) : (a.mul b).column j = a.apply (b.column j) :=
  CertifiedZeros.ext_get fun i => by simp only [get_column, get_mul, get_apply]

namespace DenseMatrix

variable {α : Type} {a b c : DenseMatrix α} {rows cols i j : ℕ} {data : Array α}

/-! ## Entries and columns -/

/-- **A column**, the stretch of the storage that it takes. -/
def column (a : DenseMatrix α) (j : ℕ) : DenseVector α :=
  a.data.extract (j * a.rows) ((j + 1) * a.rows)

theorem entry_eq (hi : i < a.rows) (hj : j < a.cols) :
    a.entry i j = .ok (a.grid.get ⟨i, hi⟩ ⟨j, hj⟩) :=
  dif_pos ⟨hi, hj⟩

theorem entry_ofGrid {m n : ℕ} (g : Grid m n α) (i : Fin m) (j : Fin n) :
    (ofGrid g).entry i j = .ok (g.get i j) :=
  entry_eq i.isLt j.isLt

theorem column_ofGrid {m n : ℕ} (g : Grid m n α) (j : Fin n) :
    (ofGrid g).column j = (g.column j).toArray := by
  simp [column, data, ofGrid, Grid.column, Nat.succ_mul]

/-- Matrices of one shape with the same entries are equal. -/
theorem ext_entry (hrows : a.rows = b.rows) (hcols : a.cols = b.cols)
    (h : ∀ i < a.rows, ∀ j < a.cols, a.entry i j = b.entry i j) : a = b := by
  obtain ⟨m, n, g⟩ := a
  obtain ⟨m', n', g'⟩ := b
  obtain rfl : m = m' := hrows
  obtain rfl : n = n' := hcols
  congr
  refine Grid.ext_get fun i j => ?_
  have hij := h i i.isLt j j.isLt
  rw [entry_eq i.isLt j.isLt, entry_eq i.isLt j.isLt] at hij
  exact Except.ok.inj hij

/-! ## Matrices from lists of entries -/

/-- **A list that holds the entries of a matrix**, entry `(i, j)` at `position i j`. -/
structure Lists (position : ℕ → ℕ → ℕ) (data : Array α) (a : DenseMatrix α) : Prop where
  size : data.size = a.rows * a.cols
  entry : ∀ i < a.rows, ∀ j < a.cols, ∃ x, data[position i j]? = some x ∧ a.entry i j = .ok x

/-- **The order of rows**, which have `cols` entries each. -/
def byRows (cols i j : ℕ) : ℕ := i * cols + j

/-- **The order of columns**, which have `rows` entries each. -/
def byColumns (rows i j : ℕ) : ℕ := j * rows + i

/-- **A matrix that is made from a list of entries** in a fixed order whenever the list has the right
length, and from no other list, is the one that has these entries. -/
theorem made_iff {made : Except Fault (DenseMatrix α)} {position : ℕ → ℕ → ℕ}
    (hmade : data.size = rows * cols →
      ∃ a, made = .ok a ∧ a.rows = rows ∧ a.cols = cols ∧ Lists position data a)
    (hsize : data.size ≠ rows * cols → ∀ a, made ≠ .ok a) :
    made = .ok a ↔ a.rows = rows ∧ a.cols = cols ∧ Lists position data a := by
  constructor
  · intro h
    obtain ⟨b, hb, hshape⟩ := hmade (not_ne_iff.mp fun hne => hsize hne a h)
    obtain rfl : b = a := Except.ok.inj (hb.symm.trans h)
    exact hshape
  · rintro ⟨rfl, rfl, h⟩
    obtain ⟨b, hb, hrows, hcols, hlist⟩ := hmade h.size
    rw [hb, ext_entry hrows hcols fun i hi j hj => ?_]
    obtain ⟨x, hx, hbx⟩ := hlist.entry i hi j hj
    obtain ⟨y, hy, hay⟩ := h.entry i (hrows ▸ hi) j (hcols ▸ hj)
    rw [hbx, hay, Option.some.inj (hx.symm.trans hy)]

/-- **The matrix of a list of entries by rows.** There is one exactly when the list fills the shape. -/
theorem ofRows_eq_ok_iff :
    ofRows rows cols data = .ok a ↔
      a.rows = rows ∧ a.cols = cols ∧ Lists (byRows cols) data a := by
  refine made_iff (fun h => ⟨_, dif_pos h, rfl, rfl, h, fun i hi j hj => ?_⟩) fun h a ha => ?_
  · have hlt : i * cols + j < data.size := h ▸ Grid.place_lt ⟨j, hj⟩ ⟨i, hi⟩
    refine ⟨data[i * cols + j], Array.getElem?_eq_getElem hlt, ?_⟩
    rw [entry_eq hi hj, Grid.get_ofFn]
  · rw [ofRows, dif_neg h] at ha
    cases ha

/-- **The matrix of a list of entries by columns.** -/
theorem ofColumns_eq_ok_iff :
    ofColumns rows cols data = .ok a ↔
      a.rows = rows ∧ a.cols = cols ∧ Lists (byColumns rows) data a := by
  refine made_iff (fun h => ⟨_, dif_pos (h.trans (Nat.mul_comm ..)), rfl, rfl, h,
    fun i hi j hj => ?_⟩) fun h a ha => ?_
  · have hlt : j * rows + i < data.size :=
      (h.trans (Nat.mul_comm ..)) ▸ Grid.place_lt ⟨i, hi⟩ ⟨j, hj⟩
    refine ⟨data[j * rows + i], Array.getElem?_eq_getElem hlt, ?_⟩
    rw [entry_eq hi hj]
    rfl
  · rw [ofColumns, dif_neg (Nat.mul_comm rows cols ▸ h)] at ha
    cases ha

/-! ## Products -/

section Products

variable [Zero α] [Add α] [Mul α]

theorem mul_ofGrid {m k n : ℕ} (a : Grid m k α) (b : Grid k n α) (hroom : m * n < storageLimit) :
    (ofGrid a).mul (ofGrid b) = .ok (ofGrid (a.mul b)) := by
  simp [mul, ofGrid, requireRoom_of_lt hroom, Grid.castRows]

theorem apply_toArray {m n : ℕ} (a : Grid m n α) (x : Vector α n) (hroom : m < storageLimit) :
    (ofGrid a).apply x.toArray = .ok (a.apply x).toArray := by
  simp [apply, ofGrid, requireRoom_of_lt hroom]

/-- **The product of two lists of entries by rows**, the first with `inner` entries in a row and the
second with `cols`. -/
def rowProduct (rows inner cols : ℕ) (u v : Array α) : Array α :=
  .ofFn fun p : Fin (rows * cols) => leftSum fun l : Fin inner =>
    u.getD (byRows inner (p / cols) l) 0 * v.getD (byRows cols l (p % cols)) 0

/-- An entry of a product of lists. -/
theorem getElem?_rowProduct (inner : ℕ) (u v : Array α) (hi : i < rows) (hj : j < cols) :
    (rowProduct rows inner cols u v)[byRows cols i j]?
      = some (leftSum fun l : Fin inner =>
          u.getD (byRows inner i l) 0 * v.getD (byRows cols l j) 0) := by
  have hlt : byRows cols i j < rows * cols := Grid.place_lt ⟨j, hj⟩ ⟨i, hi⟩
  have hrow : byRows cols i j / cols = i := by
    rw [byRows, Nat.mul_comm, Nat.mul_add_div (Nat.zero_lt_of_lt hj), Nat.div_eq_of_lt hj,
      Nat.add_zero]
  have hcol : byRows cols i j % cols = j := by
    rw [byRows, Nat.mul_comm, Nat.mul_add_mod, Nat.mod_eq_of_lt hj]
  rw [rowProduct, Array.getElem?_ofFn, dif_pos hlt]
  simp only [hrow, hcol]

/-- **What a product of two matrices holds.** -/
structure IsProduct (a b c : DenseMatrix α) : Prop where
  rows : c.rows = a.rows
  cols : c.cols = b.cols
  /-- Every column is the first factor applied to that column of the second. -/
  column : ∀ j < b.cols, a.apply (b.column j) = .ok (c.column j)
  /-- Every entry is a sum over the inner index, from zero upwards. -/
  entry : ∀ i < a.rows, ∀ j < b.cols, ∃ x y : Fin a.cols → α,
    (∀ l : Fin a.cols, a.entry i l = .ok (x l) ∧ b.entry l j = .ok (y l)) ∧
      c.entry i j = .ok (leftSum fun l => x l * y l)
  /-- Lists of entries by rows are multiplied as such. -/
  byRows : ∀ u v, Lists (byRows a.cols) u a → Lists (byRows b.cols) v b →
    Lists (byRows c.cols) (rowProduct a.rows a.cols b.cols u v) c

/-- **A product of grids**, as one of matrices. -/
theorem isProduct_ofGrid {m k n : ℕ} (a : Grid m k α) (b : Grid k n α)
    (hroom : m * n < storageLimit) : IsProduct (ofGrid a) (ofGrid b) (ofGrid (a.mul b)) where
  rows := rfl
  cols := rfl
  column j hj := by
    lift j to Fin n using hj
    have hrows : m < storageLimit :=
      Nat.lt_of_le_of_lt (Nat.le_mul_of_pos_right m (Nat.zero_lt_of_lt j.isLt)) hroom
    rw [column_ofGrid, column_ofGrid, apply_toArray _ _ hrows, Grid.column_mul]
  entry i hi j hj := by
    lift i to Fin m using hi
    lift j to Fin n using hj
    refine ⟨a.get i, (b.get · j), fun l => ⟨entry_ofGrid a i l, entry_ofGrid b l j⟩, ?_⟩
    exact (entry_ofGrid (a.mul b) i j).trans (congrArg Except.ok (Grid.get_mul a b i j))
  byRows u v hu hv := by
    refine ⟨Array.size_ofFn, fun i hi j hj => ⟨_, getElem?_rowProduct k u v hi hj, ?_⟩⟩
    lift i to Fin m using hi
    lift j to Fin n using hj
    rw [entry_ofGrid, Grid.get_mul]
    congr 2
    funext l
    obtain ⟨x, hx, hax⟩ := hu.entry i i.isLt l l.isLt
    obtain ⟨y, hy, hby⟩ := hv.entry l l.isLt j j.isLt
    rw [entry_ofGrid, Except.ok.injEq] at hax hby
    rw [Array.getD_eq_getD_getElem?, Array.getD_eq_getD_getElem?, hax, hby]
    exact (congrArg₂ (fun p q => p.getD 0 * q.getD 0) hx hy).symm

/-- **When products of matrices exist, and what they hold.** Matrices are made from full lists of
entries, by rows or by columns. Those whose inner dimensions agree have a product, as long as there is
room for it, and its columns are the first factor applied to the columns of the second. Shapes that do
not agree have no product. All this is the same for entries of every kind, floats and intervals
among them. -/
theorem mul_layout (a b : DenseMatrix α) :
    (∀ rows cols data, ofRows rows cols data = .ok a ↔
        a.rows = rows ∧ a.cols = cols ∧ Lists (byRows cols) data a) ∧
      (∀ rows cols data, ofColumns rows cols data = .ok a ↔
        a.rows = rows ∧ a.cols = cols ∧ Lists (byColumns rows) data a) ∧
      (b.rows = a.cols → a.rows * b.cols < storageLimit →
        ∃ c, a.mul b = .ok c ∧ IsProduct a b c) ∧
      (b.rows = a.cols → storageLimit ≤ a.rows * b.cols → a.mul b = .error .tooLarge) ∧
      (b.rows ≠ a.cols → a.mul b = .error (.productShapes a.rows a.cols b.rows b.cols)) ∧
      ∀ x : DenseVector α, x.size ≠ a.cols →
        a.apply x = .error (.applicationShapes a.rows a.cols x.size) := by
  refine ⟨fun _ _ _ => ofRows_eq_ok_iff, fun _ _ _ => ofColumns_eq_ok_iff, fun hinner hroom => ?_,
    fun hinner hroom => ?_, fun hinner => dif_neg hinner, fun x hx => dif_neg hx⟩
  · obtain ⟨m, k, u⟩ := a
    obtain ⟨k', n, v⟩ := b
    obtain rfl : k' = k := hinner
    exact ⟨_, mul_ofGrid u v hroom, isProduct_ofGrid u v hroom⟩
  · rw [mul, dif_pos hinner, requireRoom, if_neg (Nat.not_lt.mpr hroom)]
    rfl

/-- A rectangle of floats, an infinity among them, and one of intervals. -/
theorem mul_layout_rectangle :
    (let a : Grid 2 3 Float := .ofColumns #v[#v[1, 2], #v[Binary64.infinity, 4], #v[5, 6]]
      let b : Grid 3 1 Float := .ofColumns #v[#v[0.1, 0, 1]]
      ∃ c, (ofGrid a).mul (ofGrid b) = .ok c ∧ IsProduct (ofGrid a) (ofGrid b) c) ∧
    (let a : Grid 1 2 Interval := .ofColumns #v[#v[⟨1, 2⟩], #v[⟨-1, 1⟩]]
      let b : Grid 2 2 Interval := .ofColumns #v[#v[0, 1], #v[1, .entire]]
      ∃ c, (ofGrid a).mul (ofGrid b) = .ok c ∧ IsProduct (ofGrid a) (ofGrid b) c) :=
  ⟨(mul_layout _ _).2.2.1 rfl (by decide), (mul_layout _ _).2.2.1 rfl (by decide)⟩

end Products

end DenseMatrix

end CertifiedZeros
