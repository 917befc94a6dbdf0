import CertifiedZeros.Proofs.Aggregate
import CertifiedZeros.Proofs.Binary64.Order
import CertifiedZeros.Proofs.Binary64.RelativeError
import Mathlib.Algebra.Order.BigOperators.Group.Finset

/-! # The rounding error of an accumulation

A sum of floats errs relatively, and without an underflow: it is a multiple of the least unit, and
so it is representable when it is small. A product may underflow. Both are accumulated from left to
right:

* **`growth n`**, **`underflow n`** — the factor and the addend by which a sum of `n` products may be
  off.
* **`rounded_between`**, **`rounded_between_of_onGrid`** — one rounding of a number that is not
  negative, from either side.
* **`leftSum_between`**, **`dot_between`** — a sum of terms that are not negative, and one of products.
* **`abs_leftSum_sub_le`**, **`abs_dot_sub_le`** — the same for any signs, against the sum of sizes.
* **`real_leftSum_single`** — a sum with one term other than zero is exact. -/

namespace CertifiedZeros.Binary64

variable {x : ℝ} {n : ℕ}

/-! ## One operation -/

/-- **The error of a rounding is small against the exact and the rounded number**, above the lowest
exponent. -/
theorem abs_sub_rounded_le_of_normal (h : unitExponent x ≠ -1074) :
    |x - rounded x| ≤ unitRoundoff * |x| ∧ |x - rounded x| ≤ unitRoundoff * |rounded x| := by
  have herr := abs_sub_rounded_le x
  have hlead := zpow_le_abs_of_normal h
  have hround : (2 : ℝ) ^ (unitExponent x + 52) ≤ |rounded x| := by
    rw [abs_rounded]
    exact le_rounded (representable_zpow (by have := le_unitExponent x; omega)) hlead
  rw [half_unit_eq, mul_comm] at herr
  exact ⟨herr.trans (mul_le_mul_of_nonneg_left hlead unitRoundoff_pos.le),
    herr.trans (mul_le_mul_of_nonneg_left hround unitRoundoff_pos.le)⟩

/-- **A multiple of the least unit errs relatively.** -/
theorem abs_sub_rounded_le_of_onGrid_least (h : OnGrid (-1074) x) :
    |x - rounded x| ≤ unitRoundoff * |x| ∧ |x - rounded x| ≤ unitRoundoff * |rounded x| := by
  by_cases hexp : unitExponent x = -1074
  · have hrep : Representable x := by
      rw [Representable, hexp]
      exact h
    have hpos := mul_nonneg unitRoundoff_pos.le (abs_nonneg x)
    rw [rounded_eq hrep, sub_self, abs_zero]
    exact ⟨hpos, hpos⟩
  · exact abs_sub_rounded_le_of_normal hexp

/-- **Rounding a number that is not negative** changes it by a factor, up to an underflow. -/
theorem rounded_between (h0 : 0 ≤ x) :
    x ≤ (1 + unitRoundoff) * rounded x + underflowError ∧
      rounded x ≤ (1 + unitRoundoff) * x + underflowError := by
  have hround : 0 ≤ rounded x := le_rounded representable_zero h0
  have hunit := underflowError_pos
  by_cases hexp : unitExponent x = -1074
  · have herr := abs_sub_rounded_le x
    have hrel := mul_nonneg unitRoundoff_pos.le h0
    have hrel' := mul_nonneg unitRoundoff_pos.le hround
    rw [hexp, half_least_eq, abs_le] at herr
    constructor <;> linarith
  · obtain ⟨hexact, hrounded⟩ := abs_sub_rounded_le_of_normal hexp
    rw [abs_of_nonneg h0, abs_le] at hexact
    rw [abs_of_nonneg hround, abs_le] at hrounded
    constructor <;> linarith

theorem rounded_between_of_onGrid (h0 : 0 ≤ x) (h : OnGrid (-1074) x) :
    x ≤ (1 + unitRoundoff) * rounded x ∧ rounded x ≤ (1 + unitRoundoff) * x := by
  obtain ⟨hexact, hrounded⟩ := abs_sub_rounded_le_of_onGrid_least h
  rw [abs_of_nonneg h0, abs_le] at hexact
  rw [abs_of_nonneg (le_rounded representable_zero h0), abs_le] at hrounded
  constructor <;> linarith

/-! ## Sums -/

/-- A finite sum has finite terms. -/
theorem isFinite_of_leftSum {t : Fin n → Float} (h : (leftSum t).isFinite = true) (i : Fin n) :
    (t i).isFinite = true := by
  induction n with
  | zero => exact i.elim0
  | succ n ih =>
    rw [leftSum_succ_last] at h
    obtain ⟨hinit, hlast⟩ := isFinite_of_add h
    cases i using Fin.lastCases with
    | last => exact hlast
    | cast i => exact ih hinit i

/-- The rounded sum of two floats, which is a multiple of the least unit before. -/
theorem real_add {a b : Float} (h : (a + b).isFinite = true) :
    real (a + b) = rounded (real a + real b) ∧ OnGrid (-1074) (real a + real b) := by
  obtain ⟨ha, hb⟩ := isFinite_of_add h
  exact ⟨real_eq_rounded (add_spec ha hb).2 h,
    (representable_real ha).onGrid_least.add (representable_real hb).onGrid_least⟩

/-- **A sum of terms that are not negative** is off by a factor. -/
theorem leftSum_between {t : Fin n → Float} (h0 : ∀ i, 0 ≤ real (t i))
    (h : (leftSum t).isFinite = true) :
    0 ≤ real (leftSum t) ∧ ∑ i, real (t i) ≤ (1 + unitRoundoff) ^ n * real (leftSum t) ∧
      real (leftSum t) ≤ (1 + unitRoundoff) ^ n * ∑ i, real (t i) := by
  induction n with
  | zero =>
    rw [leftSum_zero, real_zero]
    simp
  | succ n ih =>
    rw [leftSum_succ_last] at h ⊢
    have hinit := (isFinite_of_add h).1
    obtain ⟨hs, hbelow, habove⟩ := ih (fun i => h0 i.castSucc) hinit
    have hlast := h0 (Fin.last n)
    obtain ⟨hround, hgrid⟩ := real_add h
    rw [Fin.sum_univ_castSucc]
    generalize real (leftSum fun i : Fin n => t i.castSucc) = s at *
    generalize real (t (Fin.last n)) = r at *
    generalize (∑ i : Fin n, real (t i.castSucc)) = S at *
    have hU : 0 ≤ 1 + unitRoundoff := by linarith [unitRoundoff_pos]
    have hpow := one_le_pow_roundoff n
    -- the sum so far is off by `n` roundings, and the last addition rounds once more
    obtain ⟨hlow, hhigh⟩ := rounded_between_of_onGrid (add_nonneg hs hlast) hgrid
    rw [hround, pow_succ]
    refine ⟨le_rounded representable_zero (add_nonneg hs hlast), ?_, ?_⟩
    · calc S + r ≤ (1 + unitRoundoff) ^ n * s + (1 + unitRoundoff) ^ n * r :=
            add_le_add hbelow (le_mul_of_one_le_left hlast hpow)
        _ = (1 + unitRoundoff) ^ n * (s + r) := by ring
        _ ≤ (1 + unitRoundoff) ^ n * ((1 + unitRoundoff) * rounded (s + r)) :=
            mul_le_mul_of_nonneg_left hlow (zero_le_one.trans hpow)
        _ = (1 + unitRoundoff) ^ n * (1 + unitRoundoff) * rounded (s + r) := by ring
    · calc rounded (s + r) ≤ (1 + unitRoundoff) * (s + r) := hhigh
        _ ≤ (1 + unitRoundoff) * ((1 + unitRoundoff) ^ n * S + (1 + unitRoundoff) ^ n * r) :=
            mul_le_mul_of_nonneg_left (add_le_add habove (le_mul_of_one_le_left hlast hpow))
              hU
        _ = (1 + unitRoundoff) ^ n * (1 + unitRoundoff) * (S + r) := by ring

/-- **A sum of terms of any sign** is off by a small part of the sum of their sizes. -/
theorem abs_leftSum_sub_le {t : Fin n → Float} (h : (leftSum t).isFinite = true) :
    |real (leftSum t) - ∑ i, real (t i)| ≤ ((1 + unitRoundoff) ^ n - 1) * ∑ i, |real (t i)| := by
  induction n with
  | zero =>
    rw [leftSum_zero, real_zero]
    simp
  | succ n ih =>
    rw [leftSum_succ_last] at h ⊢
    have herr := ih (isFinite_of_add h).1
    obtain ⟨hround, hgrid⟩ := real_add h
    have hstep := (abs_sub_rounded_le_of_onGrid_least hgrid).1
    have hsize : |∑ i : Fin n, real (t i.castSucc)| ≤ ∑ i : Fin n, |real (t i.castSucc)| :=
      Finset.abs_sum_le_sum_abs _ _
    rw [Fin.sum_univ_castSucc, Fin.sum_univ_castSucc, hround, pow_succ]
    generalize real (leftSum fun i : Fin n => t i.castSucc) = s at *
    generalize real (t (Fin.last n)) = r at *
    generalize (∑ i : Fin n, real (t i.castSucc)) = S at *
    generalize (∑ i : Fin n, |real (t i.castSucc)|) = A at *
    have hu := unitRoundoff_pos
    have hpow : 1 ≤ (1 + unitRoundoff) ^ n := one_le_pow_roundoff _
    generalize (1 + unitRoundoff) ^ n = W at *
    -- the computed sum is not larger than the sum of sizes and the error so far
    have hsum : |s + r| ≤ A + |r| + |s - S| := by
      calc |s + r| = |S + r + (s - S)| := by congr 1; ring
        _ ≤ |S| + |r| + |s - S| := abs_add_three _ _ _
        _ ≤ A + |r| + |s - S| := by linarith
    have hlast : unitRoundoff * |r| ≤ (W * (1 + unitRoundoff) - 1) * |r| := by
      refine mul_le_mul_of_nonneg_right ?_ (abs_nonneg r)
      nlinarith
    calc |rounded (s + r) - (S + r)| = |(s - S) - (s + r - rounded (s + r))| := by congr 1; ring
      _ ≤ |s - S| + |s + r - rounded (s + r)| := abs_sub _ _
      _ ≤ |s - S| + unitRoundoff * (A + |r| + |s - S|) :=
          add_le_add_right (hstep.trans (mul_le_mul_of_nonneg_left hsum hu.le)) _
      _ = (1 + unitRoundoff) * |s - S| + unitRoundoff * A + unitRoundoff * |r| := by ring
      _ ≤ (1 + unitRoundoff) * ((W - 1) * A) + unitRoundoff * A
          + (W * (1 + unitRoundoff) - 1) * |r| := by
          gcongr
      _ = (W * (1 + unitRoundoff) - 1) * (A + |r|) := by ring

/-- **A sum with one term** other than zero makes no error. -/
theorem real_leftSum_single {t : Fin n → Float} (h : (leftSum t).isFinite = true) {i : Fin n}
    (h0 : ∀ j ≠ i, real (t j) = 0) : real (leftSum t) = real (t i) := by
  induction n with
  | zero => exact i.elim0
  | succ n ih =>
    have hterms := isFinite_of_leftSum h
    rw [leftSum_succ_last] at h ⊢
    have hinit := (isFinite_of_add h).1
    rw [(real_add h).1]
    cases i using Fin.lastCases with
    | last =>
      -- what comes before the term sums up to zero, by the estimate of its error
      have hzero : ∀ j : Fin n, real (t j.castSucc) = 0 := fun j => h0 _ (Fin.castSucc_lt_last j).ne
      have herr := abs_leftSum_sub_le hinit
      simp only [hzero, Finset.sum_const_zero, abs_zero, mul_zero, sub_zero] at herr
      rw [abs_nonpos_iff.mp herr, zero_add, rounded_eq (representable_real (hterms _))]
    | cast i =>
      rw [ih hinit fun j hj => h0 _ (by simpa using hj), h0 _ (Fin.castSucc_lt_last i).ne', add_zero,
        rounded_eq (representable_real (hterms _))]

/-! ## Sums of products -/

/-- An estimate of every term, summed up. -/
theorem sum_le_mul_sum_add {f g : Fin n → ℝ} {r e : ℝ} (h : ∀ i, f i ≤ r * g i + e) :
    ∑ i, f i ≤ r * (∑ i, g i) + n * e := by
  have hsum := Finset.sum_le_sum fun i (_ : i ∈ Finset.univ) => h i
  rwa [Finset.sum_add_distrib, ← Finset.mul_sum, Finset.sum_const, Finset.card_fin,
    nsmul_eq_mul] at hsum

/-- **The factor by which a sum of `n` products may be off**: one rounding for the product, and one
for each addition. -/
noncomputable def growth (n : ℕ) : ℝ := (1 + unitRoundoff) ^ (n + 1)

/-- **How much a sum of `n` products may be off beyond that**: an underflow for each product. -/
noncomputable def underflow (n : ℕ) : ℝ := n * (1 + unitRoundoff) ^ n * underflowError

theorem one_le_growth (n : ℕ) : 1 ≤ growth n := one_le_pow_roundoff _

theorem underflow_nonneg (n : ℕ) : 0 ≤ underflow n := by
  have hpow := zero_le_one.trans (one_le_pow_roundoff n)
  exact mul_nonneg (mul_nonneg (Nat.cast_nonneg n) hpow) underflowError_pos.le

section

variable {c d : Fin n → Float} (h : (leftSum fun i => c i * d i).isFinite = true)

include h

/-- The terms of a finite sum of products. -/
theorem real_term (i : Fin n) : real (c i * d i) = rounded (real (c i) * real (d i)) :=
  real_mul (isFinite_of_leftSum h i)

/-- **A sum of products that are not negative**, from either side. -/
theorem dot_between (h0 : ∀ i, 0 ≤ real (c i) * real (d i)) :
    ∑ i, real (c i) * real (d i)
        ≤ growth n * real (leftSum fun i => c i * d i) + underflow n ∧
      real (leftSum fun i => c i * d i)
        ≤ growth n * (∑ i, real (c i) * real (d i)) + underflow n := by
  have hterm := real_term h
  obtain ⟨hs, hbelow, habove⟩ := leftSum_between (t := fun i => c i * d i)
    (fun i => (hterm i).symm ▸ le_rounded representable_zero (h0 i)) h
  have hU : 0 ≤ 1 + unitRoundoff := by linarith [unitRoundoff_pos]
  have hpow := one_le_pow_roundoff n
  have hunit := underflowError_pos
  have hproducts : ∑ i, real (c i) * real (d i)
      ≤ (1 + unitRoundoff) * (∑ i, real (c i * d i)) + n * underflowError :=
    sum_le_mul_sum_add fun i => (hterm i).symm ▸ (rounded_between (h0 i)).1
  have hterms : ∑ i, real (c i * d i)
      ≤ (1 + unitRoundoff) * (∑ i, real (c i) * real (d i)) + n * underflowError :=
    sum_le_mul_sum_add fun i => (hterm i).symm ▸ (rounded_between (h0 i)).2
  unfold growth underflow
  rw [pow_succ]
  generalize real (leftSum fun i => c i * d i) = s at *
  generalize (∑ i, real (c i * d i)) = T at *
  generalize (∑ i, real (c i) * real (d i)) = P at *
  -- one factor for the products, the others for the additions
  constructor
  · calc P ≤ (1 + unitRoundoff) * T + n * underflowError := hproducts
      _ ≤ (1 + unitRoundoff) * ((1 + unitRoundoff) ^ n * s)
          + n * (1 + unitRoundoff) ^ n * underflowError := by
          gcongr
          exact le_mul_of_one_le_right (Nat.cast_nonneg n) hpow
      _ = _ := by ring
  · calc s ≤ (1 + unitRoundoff) ^ n * T := habove
      _ ≤ (1 + unitRoundoff) ^ n * ((1 + unitRoundoff) * P + n * underflowError) := by gcongr
      _ = _ := by ring

/-- **A sum of products of any sign**, against the sum of their sizes. -/
theorem abs_dot_sub_le :
    |real (leftSum fun i => c i * d i) - ∑ i, real (c i) * real (d i)|
      ≤ (growth n - 1) * (∑ i, |real (c i)| * |real (d i)|) + underflow n := by
  have hterm := real_term h
  have hsum := abs_leftSum_sub_le h
  have hu := unitRoundoff_pos
  have hpow : 1 ≤ (1 + unitRoundoff) ^ n := one_le_pow_roundoff _
  have herr : ∀ i, |real (c i * d i) - real (c i) * real (d i)|
      ≤ unitRoundoff * (|real (c i)| * |real (d i)|) + underflowError := fun i => by
    rw [hterm i, abs_sub_comm, ← abs_mul, mul_comm unitRoundoff]
    exact abs_sub_rounded_le_relative _
  have hproducts : |∑ i, real (c i * d i) - ∑ i, real (c i) * real (d i)|
      ≤ unitRoundoff * (∑ i, |real (c i)| * |real (d i)|) + n * underflowError := by
    rw [← Finset.sum_sub_distrib]
    exact (Finset.abs_sum_le_sum_abs _ _).trans (sum_le_mul_sum_add herr)
  have hsizes : ∑ i, |real (c i * d i)|
      ≤ (1 + unitRoundoff) * (∑ i, |real (c i)| * |real (d i)|) + n * underflowError := by
    refine sum_le_mul_sum_add fun i => ?_
    have htri := abs_add_le (real (c i) * real (d i)) (real (c i * d i) - real (c i) * real (d i))
    rw [add_sub_cancel, abs_mul] at htri
    linarith [herr i]
  unfold growth underflow
  rw [pow_succ]
  generalize real (leftSum fun i => c i * d i) = s at *
  generalize (∑ i, real (c i * d i)) = T at *
  generalize (∑ i, |real (c i * d i)|) = B at *
  generalize (∑ i, real (c i) * real (d i)) = P at *
  generalize (∑ i, |real (c i)| * |real (d i)|) = A at *
  generalize (1 + unitRoundoff) ^ n = W at *
  calc |s - P| ≤ |s - T| + |T - P| := abs_sub_le _ _ _
    _ ≤ (W - 1) * B + (unitRoundoff * A + n * underflowError) := add_le_add hsum hproducts
    _ ≤ (W - 1) * ((1 + unitRoundoff) * A + n * underflowError)
        + (unitRoundoff * A + n * underflowError) := by
        gcongr
    _ = (W * (1 + unitRoundoff) - 1) * A + n * W * underflowError := by ring

end

end CertifiedZeros.Binary64
