import CertifiedZeros.Proofs.PhaseNorm
import CertifiedZeros.Proofs.VectorField.Convolution
import Mathlib.Tactic.FieldSimp
import Mathlib.Tactic.Linarith

/-! # What the measure of the second derivative bounds

The second derivative of the Fisher field is a multiple of the convolution, and the program takes
`2 |λ| ‖A‖` for its measure under a matrix `A`. That is a bound exactly in the norms that do not
exceed their square under convolution. For cosine series of ratio at least one this is the
inequality of a Banach algebra; the other norms have it for the constant mode alone.

* **`ofVector_convolve_le`** — cosine series of ratio at least one form a Banach algebra.
* **`Submultiplicative`** — `‖x ∗ x‖ ≤ ‖x‖²`; **`z2_bounds_of_submultiplicative`** — the measure is a
  bound then.
* **`z2_bounds_iff`** — the norms in which it is one. -/

namespace CertifiedZeros.Fisher

open PhaseNorm

variable {K : Type} [Field K] [LinearOrder K] {N : ℕ}

/-! ## Cosine series as even sequences -/

/-- **The norm of a cosine series** sums over all integer indices, each with weight `ν ^ |j|`. -/
theorem ofVector_cosine (ratio : K) (x : Vector K (N + 1)) :
    (cosine ratio).ofVector x = ∑ j ∈ Finset.Icc (-N : ℤ) N, ratio ^ j.natAbs * |mode x j| := by
  rw [sum_symmetric, ofVector_eq_weighted (by simp)]
  refine Finset.sum_congr rfl fun l _ => ?_
  simp only [weight, cosineWeight, mode_neg, mode_val, Int.natAbs_neg, Int.natAbs_natCast]
  split_ifs with hl
  · rw [hl, pow_zero, add_zero]
  · push_cast
    ring

variable [IsStrictOrderedRing K]

/-- A sum over shifted indices stays below the sum over all of them when the terms are not negative
and vanish beyond the truncation. -/
theorem sum_shift_le {g : ℤ → K} (hg : ∀ i, 0 ≤ g i) (hbeyond : ∀ i : ℤ, N < i.natAbs → g i = 0)
    (j : ℤ) : ∑ k ∈ Finset.Icc (-N : ℤ) N, g (k - j) ≤ ∑ i ∈ Finset.Icc (-N : ℤ) N, g i := by
  have hinj : Set.InjOn (· - j) (Finset.Icc (-N : ℤ) N : Set ℤ) := fun _ _ _ _ => sub_left_inj.mp
  have hwithin : ∀ i ∈ (Finset.Icc (-N : ℤ) N).image (· - j), g i ≠ 0 → i.natAbs ≤ N :=
    fun i _ hi => not_lt.mp fun hlt => hi (hbeyond i hlt)
  rw [← Finset.sum_image hinj, ← Finset.sum_filter_of_ne hwithin]
  refine Finset.sum_le_sum_of_subset_of_nonneg (fun i hi => ?_) fun i _ _ => hg i
  have := (Finset.mem_filter.mp hi).2
  rw [Finset.mem_Icc]
  omega

/-- **Cosine series of ratio at least one form a Banach algebra** under the truncated
convolution. -/
theorem ofVector_convolve_le {ratio : K} (h : 1 ≤ ratio) (x y : Vector K (N + 1)) :
    (cosine ratio).ofVector (convolve x y)
      ≤ (cosine ratio).ofVector x * (cosine ratio).ofVector y := by
  have hratio : 0 ≤ ratio := zero_le_one.trans h
  let u (i : ℤ) : K := ratio ^ i.natAbs * |mode x i|
  let v (i : ℤ) : K := ratio ^ i.natAbs * |mode y i|
  have hu : ∀ i, 0 ≤ u i := fun i => mul_nonneg (pow_nonneg hratio _) (abs_nonneg _)
  have hv : ∀ i, 0 ≤ v i := fun i => mul_nonneg (pow_nonneg hratio _) (abs_nonneg _)
  -- the weight of a sum of indices is at most the product of their weights
  have hterm : ∀ k j : ℤ, ratio ^ k.natAbs * |mode x (k - j) * mode y j| ≤ u (k - j) * v j := by
    intro k j
    have hweight : ratio ^ k.natAbs ≤ ratio ^ (k - j).natAbs * ratio ^ j.natAbs := by
      rw [← pow_add]
      exact pow_le_pow_right₀ h (by omega)
    calc ratio ^ k.natAbs * |mode x (k - j) * mode y j|
        ≤ ratio ^ (k - j).natAbs * ratio ^ j.natAbs * |mode x (k - j) * mode y j| :=
          mul_le_mul_of_nonneg_right hweight (abs_nonneg _)
      _ = u (k - j) * v j := by
          simp only [u, v, abs_mul]
          ring
  rw [ofVector_cosine, ofVector_cosine, ofVector_cosine]
  calc ∑ k ∈ Finset.Icc (-N : ℤ) N, ratio ^ k.natAbs * |mode (convolve x y) k|
      ≤ ∑ k ∈ Finset.Icc (-N : ℤ) N, ∑ j ∈ Finset.Icc (-N : ℤ) N, u (k - j) * v j := by
        refine Finset.sum_le_sum fun k hk => ?_
        rw [Finset.mem_Icc] at hk
        rw [mode_convolve x y (by omega)]
        refine (mul_le_mul_of_nonneg_left (Finset.abs_sum_le_sum_abs _ _)
          (pow_nonneg hratio _)).trans ?_
        rw [Finset.mul_sum]
        exact Finset.sum_le_sum fun j _ => hterm k j
    _ = ∑ j ∈ Finset.Icc (-N : ℤ) N, (∑ k ∈ Finset.Icc (-N : ℤ) N, u (k - j)) * v j := by
        rw [Finset.sum_comm]
        simp only [Finset.sum_mul]
    _ ≤ ∑ j ∈ Finset.Icc (-N : ℤ) N, (∑ i ∈ Finset.Icc (-N : ℤ) N, u i) * v j := by
        refine Finset.sum_le_sum fun j _ => mul_le_mul_of_nonneg_right ?_ (hv j)
        refine sum_shift_le hu (fun i hi => ?_) j
        simp only [u, mode_of_lt x hi, abs_zero, mul_zero]
    _ = (∑ i ∈ Finset.Icc (-N : ℤ) N, u i) * ∑ j ∈ Finset.Icc (-N : ℤ) N, v j :=
        (Finset.mul_sum ..).symm

/-! ## Which norms are submultiplicative -/

/-- **No square exceeds the square of the norm.** -/
def Submultiplicative (norm : PhaseNorm K) (N : ℕ) : Prop :=
  ∀ x : Vector K (N + 1), norm.ofVector (convolution x) ≤ norm.ofVector x ^ 2

/-- With the constant mode alone a convolution is a square. -/
theorem submultiplicative_zero (norm : PhaseNorm K) (h : norm.Proper) : Submultiplicative norm 0 := by
  have hnorm : ∀ x : Vector K 1, norm.ofVector x = |x.get 0| := by
    intro x
    by_cases hmax : norm = .max
    · subst hmax
      refine le_antisymm (ofVector_max_le_iff.mpr ⟨abs_nonneg _, fun i => ?_⟩)
        ((ofVector_max_le_iff.mp le_rfl).2 0)
      rw [Fin.fin_one_eq_zero i]
    · rw [ofVector_eq_weighted hmax, Fin.sum_univ_one]
      cases norm <;> simp [weight, cosineWeight]
  intro x
  have hsquare : (convolution x).get 0 = x.get 0 * x.get 0 := by
    rw [convolution_eq_convolve, convolve_get_eq_sum, Fin.sum_univ_one]
    simp [mode]
  rw [hnorm, hnorm, hsquare, abs_mul, sq]

/-- **With two modes** a smaller ratio will do: only `2 x₁²` in the constant mode is to be paid
for. -/
theorem submultiplicative_one {ratio : K} (h : 1 ≤ 2 * ratio ^ 2) :
    Submultiplicative (cosine ratio) 1 := by
  intro x
  have hzero : (convolution x).get 0 = x.get 0 * x.get 0 + 2 * (x.get 1 * x.get 1) := by
    rw [convolution_eq_convolve, convolve_get_eq_sum, Fin.sum_univ_two]
    simp [mode]
    ring
  have hone : (convolution x).get 1 = 2 * (x.get 0 * x.get 1) := by
    rw [convolution_eq_convolve, convolve_get_eq_sum, Fin.sum_univ_two]
    simp [mode]
    ring
  have hnorm : ∀ y : Vector K 2, (cosine ratio).ofVector y
      = |y.get 0| + 2 * ratio * |y.get 1| := by
    intro y
    rw [ofVector_eq_weighted (by simp), Fin.sum_univ_two]
    simp [weight, cosineWeight]
  rw [hnorm, hnorm, hzero, hone]
  have hsum : |x.get 0 * x.get 0 + 2 * (x.get 1 * x.get 1)|
      ≤ |x.get 0| ^ 2 + 2 * |x.get 1| ^ 2 := by
    rw [sq_abs, sq_abs, abs_of_nonneg (add_nonneg (mul_self_nonneg _)
      (mul_nonneg zero_le_two (mul_self_nonneg _)))]
    exact (by ring : _ = _).le
  have hmixed : |2 * (x.get 0 * x.get 1)| = 2 * (|x.get 0| * |x.get 1|) := by
    rw [abs_mul, abs_mul, abs_two]
  rw [hmixed]
  nlinarith [mul_le_mul_of_nonneg_right h (sq_nonneg |x.get 1|)]

/-- **Submultiplicative norms make the measure a bound.** -/
theorem z2_bounds_of_submultiplicative {norm : PhaseNorm K} (hproper : norm.Proper)
    (hsub : Submultiplicative norm N) (c : K) (a : Grid (N + 1) (N + 1) K) (h : Vector K (N + 1)) :
    norm.ofVector (a.apply ((convolution h).map (2 * c * ·)))
      ≤ (Fisher.mk c N norm).z2 a * norm.ofVector h ^ 2 := by
  calc norm.ofVector (a.apply ((convolution h).map (2 * c * ·)))
      ≤ norm.ofGrid a * norm.ofVector ((convolution h).map (2 * c * ·)) :=
        ofVector_apply_le hproper a _
    _ = norm.ofGrid a * (|2 * c| * norm.ofVector (convolution h)) := by
        rw [ofVector_map_mul hproper]
    _ ≤ norm.ofGrid a * (|2 * c| * norm.ofVector h ^ 2) :=
        mul_le_mul_of_nonneg_left (mul_le_mul_of_nonneg_left (hsub h) (abs_nonneg _))
          (ofGrid_nonneg a)
    _ = (Fisher.mk c N norm).z2 a * norm.ofVector h ^ 2 := by
        rw [z2, magnitude_abs, abs_mul, abs_two, Nat.cast_ofNat]
        ring

/-! ## Profiles that break the bound -/

/-- The matrix that keeps the constant mode alone. -/
def corner : Grid (N + 1) (N + 1) K := .ofFn fun i j => if i = 0 ∧ j = 0 then 1 else 0

theorem sum_corner_column (w : Fin (N + 1) → K) (j : Fin (N + 1)) :
    ∑ i, w i * |(corner : Grid (N + 1) (N + 1) K).get i j| = if j = 0 then w 0 else 0 := by
  rw [Finset.sum_eq_single 0 (fun i _ hi => by simp [corner, hi]) (by simp)]
  by_cases hj : j = 0 <;> simp [corner, hj]

/-- In every norm this matrix has norm at most one. -/
theorem ofGrid_corner_le {norm : PhaseNorm K} (h : norm.Proper) :
    norm.ofGrid (corner : Grid (N + 1) (N + 1) K) ≤ 1 := by
  have hcolumn (j : Fin (N + 1)) := sum_corner_column (fun _ => (1 : K)) j
  simp only [one_mul] at hcolumn
  cases norm with
  | max =>
    refine leftMax_le_iff.mpr ⟨zero_le_one, fun i => ?_⟩
    rw [leftSum_eq_sum, Finset.sum_eq_single 0 (fun j _ hj => by simp [corner, magnitude_abs, hj])
      (by simp)]
    by_cases hi : i = 0 <;> simp [corner, magnitude_abs, hi]
  | sum =>
    refine leftMax_le_iff.mpr ⟨zero_le_one, fun j => ?_⟩
    rw [leftSum_eq_sum]
    refine (hcolumn j).trans_le ?_
    split_ifs <;> simp
  | cosine ratio =>
    rw [ofGrid_cosine]
    refine leftMax_le_iff.mpr ⟨zero_le_one, fun j => ?_⟩
    have hweight : 0 < cosineWeight ratio j := weight_pos h j
    rw [leftSum_eq_sum, sum_corner_column, div_le_one hweight]
    split_ifs with hj
    · rw [hj]
    · exact hweight.le
  | entrywise =>
    rw [ofGrid_entrywise, Finset.sum_congr rfl fun j _ => hcolumn j]
    simp

theorem corner_apply_get (x : Vector K (N + 1)) : (corner.apply x).get 0 = x.get 0 := by
  rw [Grid.get_apply, leftSum_eq_sum, Finset.sum_eq_single 0 (fun j _ hj => by simp [corner, hj])
    (by simp)]
  simp [corner]

theorem abs_get_zero_le {norm : PhaseNorm K} (h : norm.Proper) (x : Vector K (N + 1)) :
    |x.get 0| ≤ norm.ofVector x := by
  by_cases hmax : norm = .max
  · subst hmax
    exact (ofVector_max_le_iff.mp le_rfl).2 0
  · have hone : norm.weight 0 = 1 := by cases norm <;> rfl
    have hle := Finset.single_le_sum (f := fun i : Fin (N + 1) => norm.weight i * |x.get i|)
      (fun i _ => mul_nonneg (weight_pos h i).le (abs_nonneg _)) (Finset.mem_univ 0)
    rw [ofVector_eq_weighted hmax]
    simpa [hone] using hle

/-- The identity has norm at most one where it is measured by its columns one at a time. -/
theorem ofGrid_identity_cosine_le {ratio : K} (h : 0 < ratio) :
    (cosine ratio).ofGrid (Grid.identity (N + 1)) ≤ 1 := by
  rw [ofGrid_cosine]
  refine leftMax_le_iff.mpr ⟨zero_le_one, fun j => ?_⟩
  have hweight : 0 < cosineWeight ratio j := weight_pos (show (cosine ratio).Proper from h) j
  rw [leftSum_eq_sum, div_le_one hweight,
    Finset.sum_eq_single j (fun i _ hi => by simp [hi]) (by simp)]
  simp

theorem ofVector_single {norm : PhaseNorm K} (hmax : norm ≠ .max) (l : Fin (N + 1)) :
    norm.ofVector (single l : Vector K (N + 1)) = norm.weight l := by
  rw [ofVector_eq_weighted hmax, Finset.sum_eq_single l (fun i _ hi => by simp [single, hi])
    (by simp)]
  simp [single]

/-- **With three modes or more** the square of mode one has the mode of double index as well, and
that takes a ratio of at least one. -/
theorem one_le_ratio {ratio : K} (hratio : 0 < ratio) {one : Fin (N + 1)} (hone : (one : ℕ) = 1)
    (hN : 2 ≤ N) (h : (cosine ratio).ofVector (convolution (single one : Vector K (N + 1)))
      ≤ (cosine ratio).ofVector (single one : Vector K (N + 1)) ^ 2) : 1 ≤ ratio := by
  have hl : (one : ℕ) ≠ 0 := by omega
  let term (i : Fin (N + 1)) : K :=
    cosineWeight ratio i * |(convolution (single one : Vector K (N + 1))).get i|
  have hterm : ∀ i ∈ Finset.univ, 0 ≤ term i := fun i _ =>
    mul_nonneg (weight_pos (show (cosine ratio).Proper from hratio) i).le (abs_nonneg _)
  have htwo := Finset.add_le_sum hterm (Finset.mem_univ 0)
    (Finset.mem_univ (⟨2, by omega⟩ : Fin (N + 1))) (by simp [Fin.ext_iff])
  have hterms : term 0 + term ⟨2, by omega⟩ = 2 + 2 * ratio ^ 2 := by
    simp [term, convolution_single hl, cosineWeight, hone]
  rw [ofVector_eq_weighted (by simp), ofVector_single (by simp)] at h
  have hle : 2 + 2 * ratio ^ 2 ≤ (2 * ratio) ^ 2 := by
    calc 2 + 2 * ratio ^ 2 = term 0 + term ⟨2, by omega⟩ := hterms.symm
      _ ≤ ∑ i, term i := htwo
      _ ≤ (cosine ratio).weight one ^ 2 := h
      _ = (2 * ratio) ^ 2 := by simp [weight, cosineWeight, hone]
  have hsq : 1 ≤ ratio ^ 2 := by linarith [mul_pow 2 ratio 2]
  exact (one_le_sq_iff₀ hratio.le).mp hsq

/-! ## The norms in which the measure is a bound -/

/-- **When the measure bounds the second derivative**: for the constant mode alone in every norm,
and beyond it only for cosine series, of ratio at least one, or at least `1 / √2` when there are two
modes. -/
theorem z2_bounds_iff (norm : PhaseNorm K) (N : ℕ) (hproper : norm.Proper) :
    (∀ (c : K) (a : Grid (N + 1) (N + 1) K) (h : Vector K (N + 1)),
        norm.ofVector (a.apply ((convolution h).map (2 * c * ·)))
          ≤ (Fisher.mk c N norm).z2 a * norm.ofVector h ^ 2)
      ↔ N = 0 ∨ ∃ ratio, norm = .cosine ratio ∧ (1 ≤ ratio ∨ N = 1 ∧ 1 ≤ 2 * ratio ^ 2) := by
  constructor
  · intro hbound
    -- under the corner matrix: what the constant mode of a square is worth
    have hconstant (x : Vector K (N + 1)) : |(convolution x).get 0| ≤ norm.ofVector x ^ 2 := by
      have hle := (abs_get_zero_le hproper _).trans (hbound 1 corner x)
      rw [corner_apply_get, get_map, abs_mul, mul_one, abs_two, z2, magnitude_abs, abs_one, mul_one,
        Nat.cast_ofNat, mul_assoc] at hle
      have hcorner := mul_le_mul_of_nonneg_right (ofGrid_corner_le (N := N) hproper)
        (sq_nonneg (norm.ofVector x))
      linarith
    rcases Nat.eq_zero_or_pos N with hN | hN
    · exact .inl hN
    · right
      have hsingle : norm ≠ .max → 2 ≤ norm.weight 1 ^ 2 := by
        intro hmax
        have hle := hconstant (single ⟨1, by omega⟩)
        rw [convolution_single (by simp), ofVector_single hmax] at hle
        simpa using hle
      cases norm with
      | max =>
        have hle := hconstant (Vector.replicate (N + 1) 1)
        have hones : max.ofVector (Vector.replicate (N + 1) (1 : K)) ≤ 1 :=
          ofVector_max_le_iff.mpr ⟨zero_le_one, fun i => by simp⟩
        have hsq := pow_le_one₀ (n := 2) (ofVector_nonneg hproper _) hones
        rw [convolution_ones] at hle
        have hpos : (0 : K) < N := by exact_mod_cast hN
        have := (le_abs_self _).trans (hle.trans hsq)
        linarith
      | sum | entrywise =>
        have := hsingle (by simp)
        norm_num [weight] at this
      | cosine ratio =>
        have hratio : 0 < ratio := hproper
        refine ⟨ratio, rfl, ?_⟩
        have htwo := hsingle (by simp)
        simp only [weight, cosineWeight, one_ne_zero, if_false, pow_one, Nat.cast_ofNat] at htwo
        rcases (Nat.succ_le_of_lt hN).eq_or_lt with hone | hmore
        · exact .inr ⟨hone.symm, by linarith [mul_pow 2 ratio 2]⟩
        · -- with three modes or more, the mode of double index counts as well
          left
          refine one_le_ratio hratio (rfl : ((⟨1, by omega⟩ : Fin (N + 1)) : ℕ) = 1) hmore ?_
          have hle := hbound 1 (Grid.identity (N + 1)) (single ⟨1, by omega⟩)
          rw [identity_apply, ofVector_map_mul hproper, mul_one, abs_two, z2, magnitude_abs,
            abs_one, mul_one, Nat.cast_ofNat, mul_assoc] at hle
          have hidentity := mul_le_mul_of_nonneg_right (ofGrid_identity_cosine_le (N := N) hratio)
            (sq_nonneg ((cosine ratio).ofVector (single (⟨1, by omega⟩ : Fin (N + 1)))))
          linarith
  · rintro (rfl | ⟨ratio, rfl, hratio | ⟨rfl, hratio⟩⟩) c a h
    · exact z2_bounds_of_submultiplicative hproper (submultiplicative_zero norm hproper) c a h
    · refine z2_bounds_of_submultiplicative hproper (fun x => ?_) c a h
      rw [convolution_eq_convolve, sq]
      exact ofVector_convolve_le hratio x x
    · exact z2_bounds_of_submultiplicative hproper (submultiplicative_one hratio) c a h

/-- In the norm of cosine series of ratio one, with nine modes, it does. -/
theorem z2_bounds_cosine_one :
    (cosine (1 : ℚ)).Proper ∧ ∀ (c : ℚ) (a : Grid 9 9 ℚ) (h : Vector ℚ 9),
      (cosine 1).ofVector (a.apply ((convolution h).map (2 * c * ·)))
        ≤ (Fisher.mk c 8 (cosine 1)).z2 a * (cosine 1).ofVector h ^ 2 :=
  ⟨one_pos, (z2_bounds_iff (cosine 1) 8 one_pos).mpr (.inr ⟨1, rfl, .inl le_rfl⟩)⟩

/-- **A second derivative beyond its measure**: with two modes in the norm of plain sums, under the
identity. The square of mode one is twice the constant mode. -/
theorem z2_misses :
    (Fisher.mk 1 1 .sum).z2 (Grid.identity 2) * (sum : PhaseNorm ℚ).ofVector #v[0, 1] ^ 2
      < sum.ofVector ((Grid.identity 2).apply
          ((convolution (#v[0, 1] : Vector ℚ (1 + 1))).map (2 * (1 : ℚ) * ·))) := by
  decide +kernel

end CertifiedZeros.Fisher
