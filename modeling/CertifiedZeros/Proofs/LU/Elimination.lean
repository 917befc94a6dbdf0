import CertifiedZeros.Proofs.Grid
import CertifiedZeros.Proofs.LU.Run
import Mathlib.LinearAlgebra.Matrix.Block
import Mathlib.LinearAlgebra.Matrix.Permutation

/-! # Elimination in exact arithmetic

After `k` columns the packed grid holds two matrices. What it holds below the diagonal of these columns
are multipliers, and the rest is what remains of the matrix:

* **`lowerTo k a`** — the multipliers, with ones on the diagonal.
* **`remaining k a`** — the rest, with zeros in the place of the multipliers.

Their product is the matrix with its rows permuted, from the first column to the last.

* **`swapped_mul`** — an exchange of two rows further down permutes the product.
* **`eliminated_mul`** — one column eliminated leaves the product as it is.
* **`Progress`** — the invariant of the elimination; **`step_progress`** carries it over a step. -/

namespace CertifiedZeros

/-- **A rule for exact arithmetic**, where every value is finite. -/
def PivotRule.exact {K : Type} (epsilon : K) : PivotRule K := ⟨epsilon, fun _ => true⟩

namespace LU

open Matrix

variable {K : Type} [Field K] {n : ℕ}

/-! ## The two matrices in a packed grid -/

/-- **The multipliers of the first `k` columns**, with ones on the diagonal. -/
def lowerTo (k : ℕ) (a : Grid n n K) : Matrix (Fin n) (Fin n) K :=
  .of fun i j => if (j : ℕ) < k ∧ j < i then a.get i j else if i = j then 1 else 0

/-- **What remains of the matrix after `k` columns**: their entries below the diagonal are gone. -/
def remaining (k : ℕ) (a : Grid n n K) : Matrix (Fin n) (Fin n) K :=
  .of fun i j => if (j : ℕ) < k ∧ j < i then 0 else a.get i j

theorem lowerTo_apply (k : ℕ) (a : Grid n n K) (i j : Fin n) :
    lowerTo k a i j = if (j : ℕ) < k ∧ j < i then a.get i j else if i = j then 1 else 0 := rfl

theorem remaining_apply (k : ℕ) (a : Grid n n K) (i j : Fin n) :
    remaining k a i j = if (j : ℕ) < k ∧ j < i then 0 else a.get i j := rfl

theorem lowerTo_zero (a : Grid n n K) : lowerTo 0 a = 1 := by
  ext i j
  rw [lowerTo_apply, Matrix.one_apply, if_neg (by simp)]

theorem remaining_zero (a : Grid n n K) : remaining 0 a = a.toMatrix := by
  ext i j
  rw [remaining_apply, if_neg (by simp), Grid.toMatrix_apply]

/-- The multipliers alone do not change the determinant. -/
theorem det_lowerTo (k : ℕ) (a : Grid n n K) : (lowerTo k a).det = 1 := by
  have htriangular : (lowerTo k a).IsLowerTriangular := by
    intro i j hij
    have hij : i < j := hij
    rw [lowerTo_apply, if_neg fun h => lt_asymm h.2 hij, if_neg hij.ne]
  rw [det_of_isLowerTriangular _ htriangular]
  refine Finset.prod_eq_one fun i _ => ?_
  rw [lowerTo_apply, if_neg fun h => lt_irrefl _ h.2, if_pos rfl]

/-! ## Rows exchanged -/

variable (s : LU n K) {k : ℕ} {p q : Fin n}

theorem remaining_swapRows (hp : k ≤ p) (hq : k ≤ q) :
    remaining k (s.swapRows p q).packed
      = (remaining k s.packed).submatrix (Equiv.swap p q) id := by
  ext i j
  simp only [submatrix_apply, remaining_apply, get_swapRows, exchanged_eq_swap, id,
    ← lt_swap_iff hp hq i j]

theorem lowerTo_swapRows (hp : k ≤ p) (hq : k ≤ q) :
    lowerTo k (s.swapRows p q).packed
      = (lowerTo k s.packed).submatrix (Equiv.swap p q) (Equiv.swap p q) := by
  ext i j
  simp only [submatrix_apply, lowerTo_apply, get_swapRows, exchanged_eq_swap,
    EmbeddingLike.apply_eq_iff_eq]
  by_cases hj : (j : ℕ) < k
  · rw [swap_eq_of_lt hp hq hj]
    simp only [← lt_swap_iff hp hq i j]
  · have hj' : ¬((Equiv.swap p q j : Fin n) : ℕ) < k := by
      rw [Equiv.swap_apply_def]
      split_ifs <;> omega
    rw [if_neg (c := (j : ℕ) < k ∧ _) fun h => hj h.1,
      if_neg (c := (Equiv.swap p q j : ℕ) < k ∧ _) fun h => hj' h.1]

/-- **An exchange of two rows that are not done yet** exchanges these rows of the product. -/
theorem swapped_mul (hp : k ≤ p) (hq : k ≤ q) :
    lowerTo k (s.swapRows p q).packed * remaining k (s.swapRows p q).packed
      = (lowerTo k s.packed * remaining k s.packed).submatrix (Equiv.swap p q) id := by
  rw [remaining_swapRows s hp hq, lowerTo_swapRows s hp hq, submatrix_mul_equiv]

/-! ## One column eliminated -/

section Column

variable [DecidableEq K] {a : Grid n n K} {col : Fin n}

/-- The multipliers of one column, as a column of their own. -/
def multiplierColumn (a : Grid n n K) (col i : Fin n) : K :=
  if col < i then a.get i col * (1 / a.get col col) else 0

/-- The new multipliers enter the lower triangle. -/
theorem lowerTo_eliminate (a : Grid n n K) (col : Fin n) :
    lowerTo (col + 1) (eliminate a col)
      = lowerTo col a * (1 + vecMulVec (multiplierColumn a col) (Pi.single col 1)) := by
  have hcolumn : (lowerTo col a).mulVec (multiplierColumn a col) = multiplierColumn a col := by
    funext i
    rw [mulVec, dotProduct, Finset.sum_eq_single i (fun l _ hl => ?_) (by simp)]
    · rw [lowerTo_apply, if_neg fun h => lt_irrefl _ h.2, if_pos rfl, one_mul]
    · rw [lowerTo_apply, multiplierColumn]
      split_ifs <;> first | omega | simp_all
  rw [mul_add, mul_one, mul_vecMulVec, hcolumn]
  ext i j
  rw [Matrix.add_apply, vecMulVec_apply, lowerTo_apply, lowerTo_apply, multiplierColumn]
  rcases lt_trichotomy j col with hj | rfl | hj
  · rw [Pi.single_eq_of_ne hj.ne, mul_zero, add_zero, get_eliminate, if_pos (Or.inr hj)]
    simp only [Fin.val_fin_lt.mpr hj, Nat.lt_succ_of_lt (Fin.val_fin_lt.mpr hj), true_and]
  · rw [Pi.single_eq_same, mul_one, get_eliminate]
    by_cases hi : j < i
    · simp [hi, hi.ne']
    · simp [hi]
  · have hnew : ¬(j : ℕ) < col + 1 := by omega
    have hold : ¬(j : ℕ) < col := by omega
    rw [Pi.single_eq_of_ne hj.ne', mul_zero, add_zero]
    simp only [hnew, hold, false_and, if_false]

/-- The multipliers undo the elimination of their column. -/
theorem remaining_eliminate (hpivot : a.get col col ≠ 0) :
    remaining col a = (1 + vecMulVec (multiplierColumn a col) (Pi.single col 1))
      * remaining (col + 1) (eliminate a col) := by
  rw [add_mul, one_mul, vecMulVec_mul, single_one_vecMul]
  ext i j
  have htop : remaining (col + 1) (eliminate a col) col j = if j < col then 0 else a.get col j := by
    rw [remaining_apply, get_eliminate, if_pos (Or.inl le_rfl)]
    simp only [and_iff_right_of_imp fun h : j < col => Nat.lt_succ_of_lt (Fin.val_fin_lt.mpr h)]
  rw [Matrix.add_apply, vecMulVec_apply, row_apply, htop, remaining_apply, remaining_apply,
    get_eliminate, multiplierColumn]
  by_cases hi : col < i
  · rcases lt_trichotomy j col with hj | rfl | hj
    · simp [hj, hj.trans hi, Nat.lt_succ_of_lt (Fin.val_fin_lt.mpr hj)]
    · simp [hi, hpivot]
    · have hji : ¬(j : ℕ) < col + 1 := by omega
      by_cases hzero : a.get col j = 0 <;>
        simp [hi, hj.not_gt, hji, hzero, hj.ne', hi.not_ge]
  · have hlt : (j : ℕ) < col ∧ j < i ↔ (j : ℕ) < col + 1 ∧ j < i := by omega
    simp only [hi, if_false, zero_mul, add_zero, hlt, not_lt.mp hi, true_or, if_true]

/-- **A column eliminated leaves the product as it is.** -/
theorem eliminated_mul (hpivot : a.get col col ≠ 0) :
    lowerTo (col + 1) (eliminate a col) * remaining (col + 1) (eliminate a col)
      = lowerTo col a * remaining col a := by
  rw [lowerTo_eliminate, remaining_eliminate hpivot, Matrix.mul_assoc]

end Column

/-! ## The pivot -/

section Pivot

variable [LinearOrder K]

/-- **The entry of the pivot row is largest**, from the diagonal downwards. -/
theorem le_abs_pivot (s : LU n K) (col i : Fin n) (hi : col ≤ i) :
    |s.packed.get i col| ≤ |s.packed.get (s.pivotRow col) col| :=
  not_lt.mp (not_lt_abs_pivot s col i hi)

/-- Every pivot above the threshold is accepted. -/
theorem accepts_exact_iff {epsilon threshold : K} {s : LU n K} {col : Fin n} :
    Accepts (.exact epsilon) threshold s col ↔ threshold < |s.packed.get (s.pivotRow col) col| := by
  simp only [Accepts, PivotRule.exact, and_true, magnitude_abs]

/-! ## The invariant -/

/-- **The state of the elimination after `k` columns**: the packed grid holds two factors of the matrix
with its rows permuted, with multipliers of at most one and pivots other than zero. -/
structure Progress (a : Grid n n K) (k : ℕ) (s : LU n K) : Prop where
  factors : ∃ σ : Equiv.Perm (Fin n), (∀ i, s.perm.get i = σ i) ∧
    Equiv.Perm.sign σ = (if s.even then 1 else -1) ∧
    a.toMatrix.submatrix σ id = lowerTo k s.packed * remaining k s.packed
  multiplier_le : ∀ i j : Fin n, (j : ℕ) < k → j < i → |s.packed.get i j| ≤ 1
  pivot_ne_zero : ∀ i : Fin n, (i : ℕ) < k → s.packed.get i i ≠ 0

variable {a : Grid n n K} {s t : LU n K} {k : ℕ} {p q col : Fin n}

theorem start_progress (a : Grid n n K) : Progress a 0 (start a) where
  factors := by
    refine ⟨1, (arranged_start a).row, (arranged_start a).sign, ?_⟩
    rw [lowerTo_zero, remaining_zero, Matrix.one_mul]
    rfl
  multiplier_le _ _ hj := absurd hj (Nat.not_lt_zero _)
  pivot_ne_zero _ hi := absurd hi (Nat.not_lt_zero _)

/-- An exchange of rows that are not done yet keeps the invariant. -/
theorem Progress.swapRows (h : Progress a k s) (hp : k ≤ p) (hq : k ≤ q) :
    Progress a k (s.swapRows p q) where
  factors := by
    obtain ⟨σ, hperm, hsign, hfactors⟩ := h.factors
    have hσ := (Arranged.mk hperm hsign).swapRows p q
    refine ⟨σ * Equiv.swap p q, hσ.row, hσ.sign, ?_⟩
    rw [swapped_mul s hp hq, ← hfactors, submatrix_submatrix]
    rfl
  multiplier_le i j hj hji := by
    rw [get_swapRows, exchanged_eq_swap]
    exact h.multiplier_le _ j hj ((lt_swap_iff hp hq i j).mp ⟨hj, hji⟩).2
  pivot_ne_zero i hi := by
    rw [get_swapRows, exchanged_eq_swap, swap_eq_of_lt hp hq hi]
    exact h.pivot_ne_zero i hi

variable [IsStrictOrderedRing K]

/-- **A column eliminated** at its largest entry carries the invariant on. -/
theorem Progress.eliminate (h : Progress a col s) (hpivot : s.packed.get col col ≠ 0)
    (hmax : ∀ i, col < i → |s.packed.get i col| ≤ |s.packed.get col col|) :
    Progress a (col + 1) { s with packed := LU.eliminate s.packed col } where
  factors := by
    obtain ⟨σ, hperm, hsign, hfactors⟩ := h.factors
    exact ⟨σ, hperm, hsign, hfactors.trans (eliminated_mul hpivot).symm⟩
  multiplier_le i j hj hji := by
    rcases Nat.lt_succ_iff_lt_or_eq.mp hj with hlt | heq
    · rw [get_eliminate, if_pos (Or.inr (Fin.lt_def.mpr hlt))]
      exact h.multiplier_le i j hlt hji
    · obtain rfl : j = col := Fin.ext heq
      rw [get_eliminate, if_neg (by simp [hji]), if_pos rfl, mul_one_div, abs_div,
        div_le_one (abs_pos.mpr hpivot)]
      exact hmax i hji
  pivot_ne_zero i hi := by
    rw [get_eliminate, if_pos (Or.inl (Fin.le_def.mpr (Nat.lt_succ_iff.mp hi)))]
    rcases Nat.lt_succ_iff_lt_or_eq.mp hi with hlt | heq
    · exact h.pivot_ne_zero i hlt
    · obtain rfl : i = col := Fin.ext heq
      exact hpivot

/-- A column with a pivot keeps the invariant. -/
theorem Progress.advanced (h : Progress a col s) (hpivot : s.packed.get (s.pivotRow col) col ≠ 0) :
    Progress a (col + 1) (s.advanced col) := by
  have hentry : ∀ i, (s.swapRows col (s.pivotRow col)).packed.get i col
      = s.packed.get (s.exchange col i) col := fun i => by
    rw [get_swapRows, exchanged_eq_swap, exchange]
  refine (h.swapRows le_rfl (le_pivotRow s col)).eliminate ?_ fun i hi => ?_
  · rwa [hentry, exchange_diagonal]
  · rw [hentry, hentry, exchange_diagonal]
    exact le_abs_pivot s col _ (le_exchange s hi.le)

/-- **A step carries the invariant on**, and stops only at a column without a usable pivot. -/
theorem step_progress {epsilon threshold : K} (hthreshold : 0 ≤ threshold)
    (h : Progress a col s) :
    (∀ t, step (.exact epsilon) threshold s col = .ok t → Progress a (col + 1) t) ∧
      ∀ t, step (.exact epsilon) threshold s col = .error t →
        Progress a col t ∧ ∀ i, col ≤ i → |t.packed.get i col| ≤ threshold := by
  refine ⟨fun t ht => ?_, fun t ht => ?_⟩
  · obtain ⟨haccepted, rfl⟩ := step_eq_ok_iff.mp ht
    exact h.advanced (abs_pos.mp (hthreshold.trans_lt (accepts_exact_iff.mp haccepted)))
  · obtain ⟨hrefused, rfl⟩ := step_eq_error_iff.mp ht
    have hpivot := not_lt.mp (mt accepts_exact_iff.mpr hrefused)
    exact ⟨h, fun i hi => (le_abs_pivot t col i hi).trans hpivot⟩

end Pivot

end LU

end CertifiedZeros
