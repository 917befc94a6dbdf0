import CertifiedZeros.Proofs.Grid
import CertifiedZeros.Proofs.PhaseNorm

/-! # Operator forms are induced norms

For the maximum norm, the sum and cosine series the operator form is the norm that the vector form
induces: no smaller constant bounds what the matrix does. A row of largest sum is attained at the
vector of its signs, a column of largest weight at its unit vector. The entrywise sum is larger.

* **`exists_attains`** — a vector other than zero at which the bound is attained.
* **`isLeast_ofGrid`** — so the operator form is the least bound.
* **`ofGrid_mul_le`** — every operator form is submultiplicative.
* **`operator_induced`** — all of this for the four norms. -/

namespace CertifiedZeros.PhaseNorm

variable {K : Type} [Field K] [LinearOrder K] {m n k : ℕ}

/-- **The norms whose operator form is meant to be induced**: all but the entrywise sum. -/
def Induced (norm : PhaseNorm K) : Prop := norm.Proper ∧ norm ≠ .entrywise

/-! ## Products with particular vectors -/

omit [LinearOrder K] in
/-- A column of the identity picks a column. -/
theorem apply_column_identity (a : Grid m n K) (j : Fin n) :
    a.apply ((Grid.identity n).column j) = a.column j := by
  refine ext_get fun i => ?_
  rw [Grid.get_apply, leftSum_eq_sum,
    Finset.sum_eq_single j (fun l _ hl => by simp [hl]) (by simp)]
  simp

variable [IsStrictOrderedRing K]

/-- The norm of a column of the identity is its weight. -/
theorem ofVector_column_identity {norm : PhaseNorm K} (hmax : norm ≠ .max) (j : Fin n) :
    norm.ofVector ((Grid.identity n).column j) = norm.weight j := by
  rw [ofVector_eq_weighted hmax, Finset.sum_eq_single j (fun i _ hi => by simp [hi]) (by simp)]
  simp

/-- **A vector other than zero has a positive norm.** -/
theorem ofVector_pos {norm : PhaseNorm K} (h : norm.Proper) {x : Vector K n} {i : Fin n}
    (hi : x.get i ≠ 0) : 0 < norm.ofVector x := by
  by_cases hmax : norm = .max
  · subst hmax
    exact (abs_pos.mpr hi).trans_le ((ofVector_max_le_iff.mp le_rfl).2 i)
  · rw [ofVector_eq_weighted hmax]
    exact Finset.sum_pos' (fun l _ => mul_nonneg (weight_pos h l).le (abs_nonneg _))
      ⟨i, Finset.mem_univ i, mul_pos (weight_pos h i) (abs_pos.mpr hi)⟩

/-! ## The bound is attained -/

/-- The signs of a row, a zero counting as positive. -/
def signs (a : Grid m n K) (i : Fin m) : Vector K n :=
  Vector.ofFn fun j => if a.get i j < 0 then -1 else 1

theorem abs_get_signs (a : Grid m n K) (i : Fin m) (j : Fin n) : |(signs a i).get j| = 1 := by
  rw [signs, get_ofFn]
  split_ifs <;> simp

theorem get_apply_signs (a : Grid m n K) (i : Fin m) :
    (a.apply (signs a i)).get i = ∑ j, |a.get i j| := by
  rw [Grid.get_apply, leftSum_eq_sum]
  refine Finset.sum_congr rfl fun j _ => ?_
  rw [signs, get_ofFn]
  split_ifs with hneg
  · rw [abs_of_neg hneg, mul_neg_one]
  · rw [abs_of_nonneg (not_lt.mp hneg), mul_one]

/-- **The largest row sum is attained** at the signs of its row. -/
theorem exists_attains_max (hm : 0 < m) (a : Grid m n K) : ∃ i,
    (max : PhaseNorm K).ofGrid a * max.ofVector (signs a i) ≤ max.ofVector (a.apply (signs a i)) := by
  obtain ⟨i, hi⟩ := exists_eq_leftMax (f := fun i => leftSum fun j : Fin n => |a.get i j|) hm
    fun i => by
      rw [leftSum_eq_sum]
      exact Finset.sum_nonneg fun j _ => abs_nonneg _
  have hunit : (max : PhaseNorm K).ofVector (signs a i) ≤ 1 :=
    ofVector_max_le_iff.mpr ⟨zero_le_one, fun j => (abs_get_signs a i j).le⟩
  refine ⟨i, ?_⟩
  calc (max : PhaseNorm K).ofGrid a * max.ofVector (signs a i)
      ≤ max.ofGrid a := mul_le_of_le_one_right (ofGrid_nonneg a) hunit
    _ = ∑ j, |a.get i j| := hi.symm.trans (leftSum_eq_sum _)
    _ = (a.apply (signs a i)).get i := (get_apply_signs a i).symm
    _ ≤ |(a.apply (signs a i)).get i| := le_abs_self _
    _ ≤ max.ofVector (a.apply (signs a i)) := (ofVector_max_le_iff.mp le_rfl).2 i

omit [IsStrictOrderedRing K] in
/-- **The induced norms other than the maximum** take the largest column, by weight. -/
theorem ofGrid_eq_weighted {norm : PhaseNorm K} (hmax : norm ≠ .max) (hentries : norm ≠ .entrywise)
    (a : Grid m n K) : norm.ofGrid a
      = leftMax fun j : Fin n => (∑ i : Fin m, norm.weight i * |a.get i j|) / norm.weight j := by
  cases norm with
  | max => exact absurd rfl hmax
  | entrywise => exact absurd rfl hentries
  | sum => simp only [ofGrid, weight, one_mul, div_one, leftSum_eq_sum, magnitude_abs]
  | cosine ratio => simp only [ofGrid_cosine, weight, leftSum_eq_sum]

/-- **The largest weighted column is attained** at its unit vector. -/
theorem exists_attains_weighted {norm : PhaseNorm K} (h : norm.Induced) (hmax : norm ≠ .max)
    (hn : 0 < n) (a : Grid m n K) : ∃ j, norm.ofGrid a * norm.ofVector ((Grid.identity n).column j)
      = norm.ofVector (a.apply ((Grid.identity n).column j)) := by
  have hpos := weight_pos h.1
  obtain ⟨j, hj⟩ := exists_eq_leftMax (f := fun j : Fin n =>
      (∑ i : Fin m, norm.weight i * |a.get i j|) / norm.weight j) hn fun j =>
    div_nonneg (Finset.sum_nonneg fun i _ => mul_nonneg (hpos i).le (abs_nonneg _)) (hpos j).le
  refine ⟨j, ?_⟩
  rw [ofVector_column_identity hmax, apply_column_identity, ofVector_eq_weighted hmax,
    ofGrid_eq_weighted hmax h.2, ← hj, div_mul_cancel₀ _ (hpos j).ne']
  simp only [Grid.get_column]

/-- **A vector other than zero at which the bound is attained.** -/
theorem exists_attains {norm : PhaseNorm K} (h : norm.Induced) (hn : 0 < n) (a : Grid n n K) :
    ∃ x : Vector K n, (∃ i, x.get i ≠ 0) ∧
      norm.ofVector (a.apply x) = norm.ofGrid a * norm.ofVector x := by
  by_cases hmax : norm = .max
  · subst hmax
    obtain ⟨i, hi⟩ := exists_attains_max hn a
    refine ⟨signs a i, ⟨i, fun h0 => ?_⟩, (ofVector_apply_le h.1 a _).antisymm hi⟩
    have hone := abs_get_signs a i i
    rw [h0, abs_zero] at hone
    exact zero_ne_one hone
  · obtain ⟨j, hj⟩ := exists_attains_weighted h hmax hn a
    exact ⟨_, ⟨j, by simp⟩, hj.symm⟩

/-- **The operator form is the least bound.** -/
theorem isLeast_ofGrid {norm : PhaseNorm K} (h : norm.Induced) (hn : 0 < n) (a : Grid n n K) :
    IsLeast {c | ∀ x, norm.ofVector (a.apply x) ≤ c * norm.ofVector x} (norm.ofGrid a) := by
  refine ⟨ofVector_apply_le h.1 a, fun c hc => ?_⟩
  obtain ⟨x, ⟨i, hi⟩, hx⟩ := exists_attains h hn a
  have hle := hc x
  rw [hx] at hle
  exact le_of_mul_le_mul_right hle (ofVector_pos h.1 hi)

/-! ## Products -/

/-- The entrywise sum is at least the largest column sum. -/
theorem ofGrid_sum_le_entrywise (a : Grid m n K) :
    (sum : PhaseNorm K).ofGrid a ≤ entrywise.ofGrid a := by
  refine leftMax_le_iff.mpr ⟨ofGrid_nonneg a, fun j => ?_⟩
  have hcolumn := weighted_column_le (show (entrywise : PhaseNorm K).Proper from trivial) (by simp) a j
  simpa only [weight, one_mul, mul_one, leftSum_eq_sum, magnitude_abs] using hcolumn

/-- **The entrywise sum of a product.** -/
theorem ofGrid_entrywise_mul_le (a : Grid m k K) (b : Grid k n K) :
    (entrywise : PhaseNorm K).ofGrid (a.mul b) ≤ entrywise.ofGrid a * entrywise.ofGrid b := by
  have hcolumn : ∀ j, ∑ i, |(a.mul b).get i j| ≤ entrywise.ofGrid a * ∑ l, |b.get l j| := fun j => by
    -- a column of the product is the matrix applied to a column
    have hle := ofVector_apply_le (show (entrywise : PhaseNorm K).Proper from trivial) a (b.column j)
    rw [ofVector_eq_weighted (by simp), ofVector_eq_weighted (by simp)] at hle
    simpa only [weight, one_mul, Grid.get_column, Grid.get_apply, Grid.get_mul] using hle
  rw [ofGrid_entrywise (a.mul b), ofGrid_entrywise b, Finset.mul_sum]
  exact Finset.sum_le_sum fun j _ => hcolumn j

/-- **Every operator form is submultiplicative.** -/
theorem ofGrid_mul_le {norm : PhaseNorm K} (h : norm.Proper) (hn : 0 < n) (a b : Grid n n K) :
    norm.ofGrid (a.mul b) ≤ norm.ofGrid a * norm.ofGrid b := by
  by_cases hentries : norm = .entrywise
  · subst hentries
    exact ofGrid_entrywise_mul_le a b
  · -- the product of the bounds is a bound for the product, so the least one is not larger
    refine (isLeast_ofGrid ⟨h, hentries⟩ hn (a.mul b)).2 fun x => ?_
    rw [Grid.apply_mul]
    calc norm.ofVector (a.apply (b.apply x))
        ≤ norm.ofGrid a * norm.ofVector (b.apply x) := ofVector_apply_le h a _
      _ ≤ norm.ofGrid a * (norm.ofGrid b * norm.ofVector x) :=
          mul_le_mul_of_nonneg_left (ofVector_apply_le h b x) (ofGrid_nonneg a)
      _ = norm.ofGrid a * norm.ofGrid b * norm.ofVector x := (mul_assoc ..).symm

/-- **Operator forms and the norms they go with.** Each is a bound and submultiplicative. Those of the
maximum norm, of the sum and of cosine series are attained at a vector other than zero, hence the
least bounds; the entrywise sum is at least the largest column sum. -/
theorem operator_induced {norm : PhaseNorm K} (h : norm.Proper) (hn : 0 < n) (a : Grid n n K) :
    (norm ≠ .entrywise →
        IsLeast {c | ∀ x, norm.ofVector (a.apply x) ≤ c * norm.ofVector x} (norm.ofGrid a) ∧
          ∃ x : Vector K n, (∃ i, x.get i ≠ 0) ∧
            norm.ofVector (a.apply x) = norm.ofGrid a * norm.ofVector x) ∧
      (norm = .entrywise → (∀ x, norm.ofVector (a.apply x) ≤ norm.ofGrid a * norm.ofVector x) ∧
        (sum : PhaseNorm K).ofGrid a ≤ norm.ofGrid a) ∧
      ∀ b : Grid n n K, norm.ofGrid (a.mul b) ≤ norm.ofGrid a * norm.ofGrid b := by
  refine ⟨fun hinduced => ⟨isLeast_ofGrid ⟨h, hinduced⟩ hn a, exists_attains ⟨h, hinduced⟩ hn a⟩,
    fun hentries => ⟨ofVector_apply_le h a, ?_⟩, ofGrid_mul_le h hn a⟩
  subst hentries
  exact ofGrid_sum_le_entrywise a

/-- In the norm of cosine series of ratio two, a matrix that takes the constant mode to mode one. -/
theorem operator_induced_cosine_two :
    (cosine (2 : ℚ)).Proper ∧
      (cosine 2).ofGrid (.ofColumns #v[#v[0, 1], #v[1, 0]] : Grid 2 2 ℚ) = 4 ∧
      IsLeast {c | ∀ x, (cosine (2 : ℚ)).ofVector ((.ofColumns #v[#v[0, 1], #v[1, 0]] :
        Grid 2 2 ℚ).apply x) ≤ c * (cosine 2).ofVector x} 4 := by
  have hproper : (cosine (2 : ℚ)).Proper := two_pos
  have hnorm : (cosine 2).ofGrid (.ofColumns #v[#v[0, 1], #v[1, 0]] : Grid 2 2 ℚ) = 4 := by
    decide +kernel
  exact ⟨hproper, hnorm, hnorm ▸ ((operator_induced hproper two_pos _).1 (by simp)).1⟩

end CertifiedZeros.PhaseNorm
