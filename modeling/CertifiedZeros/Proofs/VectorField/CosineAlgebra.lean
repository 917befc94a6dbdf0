import CertifiedZeros.Proofs.VectorField.Curvature
import CertifiedZeros.VectorField.Basic
import Mathlib

/-! # The algebra of symmetric profiles

A profile stands for the symmetric Laurent polynomial with its modes as coefficients. The convolution
square is the square of this polynomial, cut off beyond the truncation, and by polarization it
comes from a product, under which the norm of cosine series is submultiplicative.

* **`laurent x`** — the symmetric Laurent polynomial `∑ x |j| z ^ j`; **`coeff_laurent_mul`** — the
  coefficients of a product of two of them.
* **`convolution_eq_laurent_sq`** — the convolution square by coefficients, and by pairs of indices.
* **`product x y`** — the product `x ∗ y`, obtained from squares.
* **`ofVector_product_le`** — `‖x ∗ y‖ ≤ ‖x‖ · ‖y‖` for cosine series of ratio at least one. -/

namespace CertifiedZeros.Fisher

open PhaseNorm

/-! ## The square of a Laurent polynomial -/

section Laurent

variable {R : Type} [CommRing R] {N : ℕ}

/-- **The symmetric Laurent polynomial of a profile**, `∑ x |j| z ^ j` over the indices `j` from `-N`
to `N`. -/
noncomputable def laurent (x : Vector R (N + 1)) : LaurentPolynomial R :=
  ∑ j ∈ Finset.Icc (-N : ℤ) N, LaurentPolynomial.C (mode x j) * LaurentPolynomial.T j

/-- Its coefficients are the modes, beyond the truncation as well. -/
theorem coeff_laurent (x : Vector R (N + 1)) (i : ℤ) : (laurent x).coeff i = mode x i := by
  simp only [laurent, ← LaurentPolynomial.single_eq_C_mul_T, AddMonoidAlgebra.coeff_sum,
    Finsupp.finsetSum_apply, AddMonoidAlgebra.coeff_single, Finsupp.single_apply]
  rw [Finset.sum_ite_eq', ite_eq_left_iff, Finset.mem_Icc]
  exact fun hbeyond => (mode_of_lt x (by omega)).symm

/-- **The coefficients of a product.** -/
theorem coeff_laurent_mul (x y : Vector R (N + 1)) (k : ℤ) :
    (laurent x * laurent y).coeff k
      = ∑ j ∈ Finset.Icc (-N : ℤ) N, mode x (k - j) * mode y j := by
  rw [laurent.eq_1 y, Finset.mul_sum, AddMonoidAlgebra.coeff_sum, Finsupp.finsetSum_apply]
  refine Finset.sum_congr rfl fun j _ => ?_
  rw [← LaurentPolynomial.single_eq_C_mul_T, AddMonoidAlgebra.coeff_mul_single_apply, coeff_laurent,
    sub_eq_add_neg]

/-- The same sum, over all pairs of indices that add up to `k`. -/
theorem sum_pairs (x y : Vector R (N + 1)) (k : ℤ) :
    ∑ p ∈ Finset.Icc (-N : ℤ) N ×ˢ Finset.Icc (-N : ℤ) N with p.1 + p.2 = k, mode x p.1 * mode y p.2
      = ∑ j ∈ Finset.Icc (-N : ℤ) N, mode x (k - j) * mode y j := by
  rw [Finset.sum_filter, Finset.sum_product_right]
  refine Finset.sum_congr rfl fun j _ => ?_
  -- of the first indices only `k - j` is left, and it may lie beyond the truncation
  simp only [← eq_sub_iff_add_eq]
  rw [Finset.sum_ite_eq', ite_eq_left_iff, Finset.mem_Icc]
  intro hbeyond
  rw [mode_of_lt x (by omega), zero_mul]

/-- The two modes of a term are those of a pair of indices that adds up to `k`, neither of them beyond
the truncation. -/
theorem exists_index (k : Fin (N + 1)) (t : Fin (2 * N + 1 - k)) :
    ∃ i j : ℤ, i + j = (k : ℕ) ∧ |i| ≤ N ∧ |j| ≤ N ∧
      ((firstMode k t : ℕ) : ℤ) = |i| ∧ ((secondMode k t : ℕ) : ℤ) = |j| := by
  refine ⟨(k : ℕ) - N + t, N - t, by ring, ?_, ?_, Int.natCast_natAbs _, Int.natCast_natAbs _⟩
  · exact abs_le.mpr (by omega)
  · exact abs_le.mpr (by omega)

/-- **The convolution square is the square of the Laurent polynomial.** It is there for every profile
of the right length, and no term reads a mode beyond the truncation. -/
theorem convolution_eq_laurent_sq (p : Fisher R) (x : Vector R (p.order + 1)) :
    VectorField.convolution p x.toArray = .ok (convolution x).toArray ∧
      ∀ k : Fin (p.order + 1),
        (convolution x).get k = (laurent x ^ 2).coeff (k : ℕ) ∧
        (convolution x).get k = ∑ q ∈ Finset.Icc (-p.order : ℤ) p.order ×ˢ
          Finset.Icc (-p.order : ℤ) p.order with q.1 + q.2 = ((k : ℕ) : ℤ), mode x q.1 * mode x q.2 ∧
        ∀ t : Fin (2 * p.order + 1 - k), ∃ i j : ℤ, i + j = (k : ℕ) ∧ |i| ≤ p.order ∧ |j| ≤ p.order ∧
          ((firstMode k t : ℕ) : ℤ) = |i| ∧ ((secondMode k t : ℕ) : ℤ) = |j| := by
  refine ⟨?_, fun k => ⟨?_, ?_, exists_index k⟩⟩
  · rw [VectorField.convolution, VectorField.pointOfDim, dif_pos x.size_toArray]
    rfl
  · rw [sq, coeff_laurent_mul, convolution_eq_convolve, convolve_get]
  · rw [sum_pairs, convolution_eq_convolve, convolve_get]

end Laurent

/-! ## The product -/

section Product

variable {K : Type} [Field K] {N : ℕ}

/-- **The product of two profiles**, `((x + y) ∗ (x + y) - x ∗ x - y ∗ y) / 2`. -/
def product (x y : Vector K (N + 1)) : Vector K (N + 1) :=
  (convolution (x + y) - convolution x - convolution y).map (· / 2)

theorem get_sub (x y : Vector K N) (i : Fin N) : (x - y).get i = x.get i - y.get i := by
  simp [get_eq_getElem]

/-- **The product is the convolution.** -/
theorem product_eq_convolve (h : (2 : K) ≠ 0) (x y : Vector K (N + 1)) : product x y = convolve x y := by
  refine ext_get fun k => ?_
  rw [product, get_map, get_sub, get_sub, convolution_add]
  field_simp
  ring

variable [LinearOrder K] [IsStrictOrderedRing K]

/-- **The norm of cosine series of ratio at least one** is submultiplicative. -/
theorem ofVector_product_le {ratio : K} (h : 1 ≤ ratio) (x y : Vector K (N + 1)) :
    (cosine ratio).ofVector (product x y)
      ≤ (cosine ratio).ofVector x * (cosine ratio).ofVector y := by
  rw [product_eq_convolve two_ne_zero]
  exact ofVector_convolve_le h x y

/-- Two profiles with three modes, in ratio two: the norms are `33` and `12`, that of the product
is `18`. -/
theorem ofVector_product_le_three :
    (1 : ℚ) ≤ 2 ∧ product (#v[1, 2, 3] : Vector ℚ (2 + 1)) #v[0, 1, -1] = #v[-2, 2, 1] ∧
      (cosine 2).ofVector (product (#v[1, 2, 3] : Vector ℚ (2 + 1)) #v[0, 1, -1])
        ≤ (cosine 2).ofVector (#v[1, 2, 3] : Vector ℚ (2 + 1)) * (cosine 2).ofVector #v[0, 1, -1] := by
  refine ⟨one_le_two, ?_, ofVector_product_le one_le_two _ _⟩
  rw [product_eq_convolve two_ne_zero]
  decide +kernel

end Product

end CertifiedZeros.Fisher
