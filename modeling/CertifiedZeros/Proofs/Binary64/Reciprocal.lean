import CertifiedZeros.Proofs.Binary64.Order
import CertifiedZeros.Proofs.Binary64.RelativeError

/-! # Reciprocals

A product with a rounded reciprocal is not a quotient. It is rounded twice, and its reciprocal can leave
the range of the format although the quotient does not:

* **`reciprocal_spec`**, **`isFinite_reciprocal_eq_false`** — the reciprocal is finite exactly above
  `2 ^ (-1024)`.
* **`mul_rounded_inv_le`** — a number times its rounded reciprocal exceeds one by half a last place, or by
  two where the reciprocal is subnormal.
* **`mul_reciprocal_spec`** — so for floats the product with the reciprocal is at most one, except for
  numbers above `2 ^ 1022`.
* **`abs_mul_reciprocal_le`** — and no smaller number has a larger one. -/

namespace CertifiedZeros.Binary64

variable {p a : Float} {y : ℝ}

/-! ## The range of reciprocals -/

/-- **The reciprocal of a number above `2 ^ (-1024)`** is finite. -/
theorem reciprocal_spec (hp : p.isFinite = true) (h : (2 : ℝ) ^ (-1024 : ℤ) < |real p|) :
    (1 / p).isFinite = true ∧ real (1 / p) = rounded (1 / real p) := by
  have h0 : real p ≠ 0 := abs_pos.mp ((zpow_two_pos _).trans h)
  have hquotient := div_spec isFinite_one hp h0
  rw [real_one] at hquotient
  obtain ⟨hlargest, hlargest'⟩ := value_largest
  refine finite_of_abs_le hquotient (isFinite_of_value hlargest hlargest') ?_
  -- the next number above `2 ^ (-1024)` is far enough away
  have hgrid : OnGrid (-1074) (|real p| - (2 : ℝ) ^ (-1024 : ℤ)) := by
    obtain ⟨habs, hreal⟩ := abs_finite hp
    exact (hreal ▸ (representable_real habs).onGrid_least).sub
      (representable_zpow (by norm_num)).onGrid_least
  have hgap := hgrid.zpow_le_abs (sub_pos.mpr h).ne'
  rw [abs_of_pos (sub_pos.mpr h)] at hgap
  have hbound : (2 ^ 50 + 1) * (2 : ℝ) ^ (-1074 : ℤ) ≤ |real p| := by
    have hpow := zpow_two_add (-1074) 50
    rw [show (-1074 : ℤ) + (50 : ℕ) = -1024 by norm_num] at hpow
    linarith
  have htop : topUnit * (2 : ℝ) ^ (-1074 : ℤ) = 1 / 2 ^ 103 := by
    rw [topUnit, ← zpow_add₀ (by norm_num)]
    norm_num
  rw [real_eq_of_value hlargest', abs_div, abs_one, div_le_iff₀ (abs_pos.mpr h0), limit_eq]
  have hunit := topUnit_pos
  calc (1 : ℝ) ≤ (2 ^ 53 - 1) * (2 ^ 50 + 1) * (topUnit * (2 : ℝ) ^ (-1074 : ℤ)) := by
        rw [htop]
        norm_num
    _ = (2 ^ 53 * topUnit - topUnit) * ((2 ^ 50 + 1) * (2 : ℝ) ^ (-1074 : ℤ)) := by ring
    _ ≤ (2 ^ 53 * topUnit - topUnit) * |real p| :=
        mul_le_mul_of_nonneg_left hbound (by linarith)

/-- **The reciprocal of a smaller number** is infinite. -/
theorem isFinite_reciprocal_eq_false (hp : p.isFinite = true) (h0 : real p ≠ 0)
    (h : |real p| ≤ (2 : ℝ) ^ (-1024 : ℤ)) : (1 / p).isFinite = false := by
  by_contra hfinite
  rw [Bool.not_eq_false] at hfinite
  obtain ⟨-, hvalue⟩ := div_spec isFinite_one hp h0
  rw [real_one, ← coe_real hfinite] at hvalue
  have hlarge : limit ≤ |1 / real p| := by
    rw [abs_div, abs_one, le_div_iff₀ (abs_pos.mpr h0), limit]
    calc (2 : ℝ) ^ (1024 : ℤ) * |real p| ≤ (2 : ℝ) ^ (1024 : ℤ) * (2 : ℝ) ^ (-1024 : ℤ) :=
          mul_le_mul_of_nonneg_left h (zpow_two_pos _).le
      _ = 1 := by rw [← zpow_add₀ (by norm_num)]; norm_num
  have hrounded := le_rounded representable_limit hlarge
  rw [← abs_rounded, clamp_eq_coe hvalue.symm] at hrounded
  exact hrounded.not_gt (abs_real_lt hfinite)

/-! ## A number times its reciprocal -/

/-- **A number times its rounded reciprocal**, while the reciprocal is normal. -/
theorem mul_rounded_inv_le_of_normal (h0 : 0 < y) (h : y ≤ (2 : ℝ) ^ (1022 : ℤ)) :
    y * rounded (1 / y) ≤ 1 + (2 : ℝ) ^ (-53 : ℤ) := by
  have hpos : 0 < 1 / y := one_div_pos.mpr h0
  have hnormal : (2 : ℝ) ^ (-1022 : ℤ) ≤ |1 / y| := by
    rw [abs_of_pos hpos, zpow_neg, ← one_div]
    exact one_div_le_one_div_of_le h0 h
  have hunit := unit_le_of_normal hnormal
  have herr := (abs_le.mp (abs_sub_rounded_le (1 / y))).1
  rw [abs_of_pos hpos, unitRoundoff] at hunit
  calc y * rounded (1 / y) ≤ y * (1 / y + 1 / y * (2 : ℝ) ^ (-53 : ℤ)) :=
        mul_le_mul_of_nonneg_left (by linarith) h0.le
    _ = 1 + (2 : ℝ) ^ (-53 : ℤ) := by field_simp

/-- **A number times its rounded reciprocal**, over the whole range of the format. -/
theorem mul_rounded_inv_le (h0 : 0 < y) (h : y < limit) :
    y * rounded (1 / y) ≤ 1 + (2 : ℝ) ^ (-51 : ℤ) := by
  rcases le_or_gt y ((2 : ℝ) ^ (1022 : ℤ)) with hnormal | hlarge
  · exact (mul_rounded_inv_le_of_normal h0 hnormal).trans (by norm_num)
  have hpos : 0 < 1 / y := one_div_pos.mpr h0
  have hunit : unitExponent (1 / y) ≤ -1074 := by
    refine unitExponent_le le_rfl ?_
    rw [abs_of_pos hpos, div_lt_iff₀ h0]
    calc (1 : ℝ) < (2 : ℝ) ^ (-1074 + 53 : ℤ) * (2 : ℝ) ^ (1022 : ℤ) := by
          rw [← zpow_add₀ (by norm_num)]
          norm_num
      _ ≤ (2 : ℝ) ^ (-1074 + 53 : ℤ) * y := mul_le_mul_of_nonneg_left hlarge.le (zpow_two_pos _).le
  have herr := (abs_le.mp (abs_sub_rounded_le (1 / y))).1
  have hlast := zpow_two_le hunit
  calc y * rounded (1 / y) ≤ y * (1 / y + (2 : ℝ) ^ (-1074 : ℤ) / 2) :=
        mul_le_mul_of_nonneg_left (by linarith) h0.le
    _ = 1 + y * ((2 : ℝ) ^ (-1074 : ℤ) / 2) := by field_simp
    _ ≤ 1 + limit * ((2 : ℝ) ^ (-1074 : ℤ) / 2) := by
        have hhalf : 0 ≤ (2 : ℝ) ^ (-1074 : ℤ) / 2 := (half_pos (zpow_two_pos _)).le
        gcongr
    _ = 1 + (2 : ℝ) ^ (-51 : ℤ) := by
        rw [limit, mul_div_assoc', ← zpow_add₀ (by norm_num)]
        norm_num

/-- One and half a last place are rounded to one, which is even. -/
theorem rounded_one_add : rounded (1 + (2 : ℝ) ^ (-53 : ℤ)) = 1 := by
  have habs : |1 + (2 : ℝ) ^ (-53 : ℤ)| = 1 + (2 : ℝ) ^ (-53 : ℤ) :=
    abs_of_pos (add_pos one_pos (zpow_two_pos _))
  have hunit : unitExponent (1 + (2 : ℝ) ^ (-53 : ℤ)) = -52 := by
    refine le_antisymm (unitExponent_le (by norm_num) ?_) (le_unitExponent_of_le ?_) <;> rw [habs] <;>
      norm_num
  have htie := rounded_eq_of_even (x := 1 + (2 : ℝ) ^ (-53 : ℤ)) (n := 2 ^ 52) (by decide) (by
    rw [hunit]
    norm_num [abs_of_pos])
  rw [htie, hunit]
  norm_num

/-- The sign of a number does not matter to it times its reciprocal. -/
theorem mul_rounded_inv_abs (x : ℝ) : x * rounded (1 / x) = |x| * rounded (1 / |x|) := by
  rcases abs_choice x with h | h <;> rw [h]
  rw [div_neg, rounded_neg]
  ring

/-- **A float times its reciprocal** is at most one, or a little more above `2 ^ 1022`. -/
theorem mul_reciprocal_spec (hp : p.isFinite = true) (h : (2 : ℝ) ^ (-1024 : ℤ) < |real p|) :
    (p * (1 / p)).isFinite = true ∧ real (p * (1 / p)) = rounded (|real p| * |real (1 / p)|) ∧
      real (p * (1 / p)) ≤ 1 + (2 : ℝ) ^ (-51 : ℤ) ∧
      (|real p| ≤ (2 : ℝ) ^ (1022 : ℤ) → real (p * (1 / p)) ≤ 1) := by
  obtain ⟨hfinite, hreal⟩ := reciprocal_spec hp h
  have hpos : 0 < |real p| := (zpow_two_pos _).trans h
  have hrounded : 0 ≤ rounded (1 / |real p|) := le_rounded representable_zero (one_div_pos.mpr hpos).le
  have habs : |real p| * |real (1 / p)| = |real p| * rounded (1 / |real p|) := by
    rw [hreal, abs_rounded, abs_div, abs_one]
  have hproduct : real p * real (1 / p) = |real p| * rounded (1 / |real p|) := by
    rw [hreal, mul_rounded_inv_abs]
  have hle := mul_rounded_inv_le hpos (abs_real_lt hp)
  have hspec := mul_spec hp hfinite
  rw [hproduct] at hspec
  obtain ⟨hfin, hvalue⟩ := finite_of_abs_le hspec two_spec.1 (by
    rw [abs_of_nonneg (mul_nonneg hpos.le hrounded), two_spec.2]
    exact hle.trans (by norm_num))
  refine ⟨hfin, hvalue.trans (congrArg rounded habs.symm), hvalue ▸ rounded_le ?_ hle, fun hnormal => ?_⟩
  · refine representable_of_onGrid (e := -51) (by norm_num) ⟨2 ^ 51 + 1, by norm_num⟩ ?_
    rw [abs_of_pos (add_pos one_pos (zpow_two_pos _))]
    norm_num
  · have hmono := rounded_mono (mul_rounded_inv_le_of_normal hpos hnormal)
    exact hvalue.trans_le (hmono.trans_eq rounded_one_add)

/-- **A number that is not larger** has no larger product with the reciprocal. -/
theorem abs_mul_reciprocal_le (hp : p.isFinite = true) (h : (2 : ℝ) ^ (-1024 : ℤ) < |real p|)
    (ha : a.isFinite = true) (hle : |real a| ≤ |real p|) :
    (a * (1 / p)).isFinite = true ∧ |real (a * (1 / p))| ≤ real (p * (1 / p)) := by
  obtain ⟨hfinite, -⟩ := reciprocal_spec hp h
  obtain ⟨hbound, hreal, -⟩ := mul_reciprocal_spec hp h
  have hmono : rounded |real a * real (1 / p)| ≤ real (p * (1 / p)) := by
    rw [hreal, abs_mul]
    exact rounded_mono (mul_le_mul_of_nonneg_right hle (abs_nonneg _))
  obtain ⟨hnum, hvalue⟩ := mul_spec ha hfinite
  have hlt : |rounded (real a * real (1 / p))| < limit := by
    rw [abs_rounded]
    exact hmono.trans_lt (lt_of_abs_lt (abs_real_lt hbound))
  rw [clamp_of_lt hlt] at hvalue
  refine ⟨isFinite_of_value hnum hvalue, ?_⟩
  rw [real_eq_of_value hvalue, abs_rounded]
  exact hmono

end CertifiedZeros.Binary64
