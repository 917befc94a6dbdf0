import CertifiedZeros.PhaseNorm
import CertifiedZeros.Proofs.Aggregate
import Mathlib.Algebra.BigOperators.Ring.Finset
import Mathlib.Algebra.Order.BigOperators.Group.Finset
import Mathlib.Algebra.Order.BigOperators.Ring.Finset
import Mathlib.Algebra.Order.Field.Basic
import Mathlib.Logic.Equiv.Fin.Basic
import Mathlib.Tactic.Positivity

/-! # Norms in exact arithmetic

Over an ordered field the vector forms are norms, and the operator forms bound what a matrix does
to them. All but the maximum norm are sums with positive weights, which one argument covers.

* **`ofVector_eq_weighted`** — the norms that are weighted sums.
* **`ofVector_apply_le`** — `‖A x‖ ≤ ‖A‖ · ‖x‖` for each norm. -/

namespace CertifiedZeros.PhaseNorm

variable {K : Type} [Field K] [LinearOrder K] {m n : ℕ}

/-! ## The forms as sums and maxima -/

/-- **The norms that are defined**: a cosine series needs a positive ratio. -/
def Proper : PhaseNorm K → Prop
  | .cosine ratio => 0 < ratio
  | _ => True

theorem ofVector_max_le_iff {x : Vector K n} {b : K} :
    (max : PhaseNorm K).ofVector x ≤ b ↔ 0 ≤ b ∧ ∀ i, |x.get i| ≤ b :=
  leftMax_le_iff

/-- The weights of a norm that is a sum; the maximum norm has none. -/
def weight : PhaseNorm K → ℕ → K
  | .cosine ratio => cosineWeight ratio
  | _ => fun _ => 1

/-- **A norm other than the maximum is a weighted sum.** -/
theorem ofVector_eq_weighted {norm : PhaseNorm K} (h : norm ≠ .max) (x : Vector K n) :
    norm.ofVector x = ∑ i : Fin n, norm.weight i * |x.get i| := by
  cases norm with
  | max => exact absurd rfl h
  | sum | entrywise => simp only [ofVector, leftSum_eq_sum, weight, one_mul, magnitude_abs]
  | cosine ratio => simp only [ofVector, leftSum_eq_sum, weight, magnitude_abs]

theorem ofGrid_cosine (ratio : K) (a : Grid m n K) :
    (cosine ratio).ofGrid a = leftMax fun j : Fin n =>
      (leftSum fun i : Fin m => cosineWeight ratio i * |a.get i j|) / cosineWeight ratio j := by
  simp [ofGrid, magnitude_abs]

/-- The entrywise sum, row by row within each column. -/
theorem ofGrid_entrywise (a : Grid m n K) :
    (entrywise : PhaseNorm K).ofGrid a = ∑ j, ∑ i, |a.get i j| := by
  rw [ofGrid, leftSum_eq_sum, ← Fintype.sum_prod_type']
  refine Fintype.sum_equiv finProdFinEquiv.symm _ _ fun p => ?_
  have hplace : Grid.place (finProdFinEquiv.symm p).2 (finProdFinEquiv.symm p).1 = p := by
    conv_rhs => rw [← finProdFinEquiv.apply_symm_apply p]
    exact Fin.ext (by simp [Grid.place, finProdFinEquiv_apply_val, add_comm, mul_comm])
  rw [Grid.get, hplace, magnitude_abs]

omit [LinearOrder K] in
/-- The identity does nothing. -/
theorem identity_apply (x : Vector K n) : (Grid.identity n).apply x = x := by
  refine ext_get fun i => ?_
  rw [Grid.get_apply, leftSum_eq_sum,
    Finset.sum_eq_single i (fun j _ hj => by simp [hj.symm]) (by simp)]
  simp

/-! ## Vector forms -/

variable [IsStrictOrderedRing K]

theorem weight_pos {norm : PhaseNorm K} (h : norm.Proper) (k : ℕ) : 0 < norm.weight k := by
  cases norm with
  | cosine ratio =>
    have hratio : 0 < ratio := h
    show 0 < cosineWeight ratio k
    unfold cosineWeight
    split_ifs <;> positivity
  | max | sum | entrywise => exact one_pos

theorem ofVector_nonneg {norm : PhaseNorm K} (h : norm.Proper) (x : Vector K n) :
    0 ≤ norm.ofVector x := by
  by_cases hmax : norm = .max
  · subst hmax
    exact leftMax_nonneg
  · rw [ofVector_eq_weighted hmax]
    exact Finset.sum_nonneg fun i _ => mul_nonneg (weight_pos h i).le (abs_nonneg _)

/-- **Scaling a vector scales its norm.** -/
theorem ofVector_map_mul {norm : PhaseNorm K} (h : norm.Proper) (c : K) (x : Vector K n) :
    norm.ofVector (x.map (c * ·)) = |c| * norm.ofVector x := by
  by_cases hmax : norm = .max
  · subst hmax
    refine le_antisymm (ofVector_max_le_iff.mpr ⟨mul_nonneg (abs_nonneg c)
      (ofVector_nonneg h x), fun i => ?_⟩) ?_
    · rw [get_map, abs_mul]
      exact mul_le_mul_of_nonneg_left ((ofVector_max_le_iff.mp le_rfl).2 i) (abs_nonneg c)
    · rcases eq_or_ne c 0 with rfl | hc
      · rw [abs_zero, zero_mul]
        exact ofVector_nonneg h _
      · rw [← le_div_iff₀' (abs_pos.mpr hc)]
        refine ofVector_max_le_iff.mpr ⟨div_nonneg (ofVector_nonneg h _) (abs_nonneg c),
          fun i => ?_⟩
        rw [le_div_iff₀' (abs_pos.mpr hc), ← abs_mul]
        simpa using (ofVector_max_le_iff.mp (le_refl (max.ofVector (x.map (c * ·))))).2 i
  · rw [ofVector_eq_weighted hmax, ofVector_eq_weighted hmax, Finset.mul_sum]
    refine Finset.sum_congr rfl fun i _ => ?_
    rw [get_map, abs_mul, mul_left_comm]

/-! ## Operator forms -/

/-- **Every column weighs at most the norm of the grid**, relative to its own weight. -/
theorem weighted_column_le {norm : PhaseNorm K} (h : norm.Proper) (hmax : norm ≠ .max)
    (a : Grid m n K) (j : Fin n) :
    ∑ i : Fin m, norm.weight i * |a.get i j| ≤ norm.ofGrid a * norm.weight j := by
  cases norm with
  | max => exact absurd rfl hmax
  | sum =>
    simp only [weight, one_mul, mul_one, ofGrid, ← leftSum_eq_sum]
    exact le_leftMax (f := fun j => leftSum fun i : Fin m => |a.get i j|) j
  | cosine ratio =>
    rw [ofGrid_cosine, ← div_le_iff₀ (weight_pos h j), ← leftSum_eq_sum]
    exact le_leftMax (f := fun j : Fin n => (leftSum fun i : Fin m =>
      cosineWeight ratio i * |a.get i j|) / cosineWeight ratio j) j
  | entrywise =>
    simp only [weight, one_mul, mul_one, ofGrid_entrywise]
    exact Finset.single_le_sum (f := fun j => ∑ i, |a.get i j|)
      (fun j _ => Finset.sum_nonneg fun i _ => abs_nonneg _) (Finset.mem_univ j)

theorem abs_apply_le (a : Grid m n K) (x : Vector K n) (i : Fin m) :
    |(a.apply x).get i| ≤ ∑ j, |a.get i j| * |x.get j| := by
  rw [Grid.get_apply, leftSum_eq_sum]
  refine (Finset.abs_sum_le_sum_abs _ _).trans_eq (Finset.sum_congr rfl fun j _ => abs_mul _ _)

theorem ofGrid_nonneg {norm : PhaseNorm K} (a : Grid m n K) : 0 ≤ norm.ofGrid a := by
  cases norm with
  | max | sum | cosine => exact leftMax_nonneg
  | entrywise =>
    rw [ofGrid_entrywise]
    exact Finset.sum_nonneg fun j _ => Finset.sum_nonneg fun i _ => abs_nonneg _

/-- **The operator form bounds what the matrix does.** -/
theorem ofVector_apply_le {norm : PhaseNorm K} (h : norm.Proper) (a : Grid m n K)
    (x : Vector K n) : norm.ofVector (a.apply x) ≤ norm.ofGrid a * norm.ofVector x := by
  by_cases hmax : norm = .max
  · subst hmax
    refine ofVector_max_le_iff.mpr
      ⟨mul_nonneg (ofGrid_nonneg a) (ofVector_nonneg h x), fun i => (abs_apply_le a x i).trans ?_⟩
    calc ∑ j, |a.get i j| * |x.get j|
        ≤ ∑ j, |a.get i j| * max.ofVector x :=
          Finset.sum_le_sum fun j _ => mul_le_mul_of_nonneg_left
            ((ofVector_max_le_iff.mp le_rfl).2 j) (abs_nonneg _)
      _ = (∑ j, |a.get i j|) * max.ofVector x := (Finset.sum_mul ..).symm
      _ ≤ max.ofGrid a * max.ofVector x := by
          refine mul_le_mul_of_nonneg_right ?_ (ofVector_nonneg h x)
          rw [← leftSum_eq_sum]
          exact le_leftMax (f := fun i => leftSum fun j : Fin n => |a.get i j|) i
  · -- exchange the sums, so that each coordinate meets the weighted sum of its column
    rw [ofVector_eq_weighted hmax, ofVector_eq_weighted hmax x]
    calc ∑ i : Fin m, norm.weight i * |(a.apply x).get i|
        ≤ ∑ i : Fin m, norm.weight i * ∑ j, |a.get i j| * |x.get j| :=
          Finset.sum_le_sum fun i _ =>
            mul_le_mul_of_nonneg_left (abs_apply_le a x i) (weight_pos h i).le
      _ = ∑ j, (∑ i : Fin m, norm.weight i * |a.get i j|) * |x.get j| := by
          simp only [Finset.mul_sum, Finset.sum_mul]
          rw [Finset.sum_comm]
          simp only [mul_assoc]
      _ ≤ ∑ j : Fin n, norm.ofGrid a * norm.weight j * |x.get j| :=
          Finset.sum_le_sum fun j _ =>
            mul_le_mul_of_nonneg_right (weighted_column_le h hmax a j) (abs_nonneg _)
      _ = norm.ofGrid a * ∑ j : Fin n, norm.weight j * |x.get j| := by
          simp only [Finset.mul_sum, mul_assoc]

end CertifiedZeros.PhaseNorm
