import CertifiedZeros.Proofs.Binary64.Reflection
import CertifiedZeros.Proofs.Binary64.Order

/-! # Floats scaled by powers of two

A power of two moves the exponent of a number and leaves its significand alone, so rounding does not
notice it, except at the ends of the range of exponents. Away from these ends operations on scaled
floats give scaled results.

* **`InRange x`** — an exact result away from both ends: zero or normal, and without overflow.
* **`Representable.scale`** — among the normal numbers a power of two moves floats to floats.
* **`InRange.rounded_scale`** — rounding commutes with powers of two in between.
* **`IsClear`** — a test of the rounded result that shows the exact one in range.
* **`Scaled k a a'`** — `a'` is `2 ^ k` times `a`; **`Scaled.mul`**, **`Scaled.sub`**, **`Scaled.div`** —
  operations on scaled floats.
* **`Scaled.lt_iff`**, **`Scaled.larger`** — comparisons do not notice a common scale. -/

namespace CertifiedZeros.Binary64

variable {k l : ℤ} {x : ℝ}

/-! ## Rounding -/

/-- **An exact result away from both ends of the range**: it is not below the normal numbers, unless it
is zero, and it does not overflow when it is rounded. -/
structure InRange (x : ℝ) : Prop where
  normal : x ≠ 0 → (2 : ℝ) ^ (-1022 : ℤ) ≤ |x|
  finite : |rounded x| < limit

theorem abs_scale (k : ℤ) (x : ℝ) : |(2 : ℝ) ^ k * x| = (2 : ℝ) ^ k * |x| := by
  rw [abs_mul, abs_of_pos (zpow_two_pos k)]

/-- **The last place moves along** among the normal numbers. -/
theorem unitExponent_scale (hx : (2 : ℝ) ^ (-1022 : ℤ) ≤ |x|)
    (hk : (2 : ℝ) ^ (-1022 : ℤ) ≤ |(2 : ℝ) ^ k * x|) :
    unitExponent ((2 : ℝ) ^ k * x) = k + unitExponent x := by
  have hlt := abs_lt_zpow x
  have hfull : (2 : ℝ) ^ (unitExponent x + 52) ≤ |x| := by
    by_cases hlow : unitExponent x = -1074
    · rw [hlow]
      exact hx
    · exact zpow_le_abs_of_normal hlow
  have hscaled : |(2 : ℝ) ^ k * x| < (2 : ℝ) ^ (k + unitExponent x + 53) := by
    rw [abs_scale, add_assoc, zpow_add₀ (by norm_num)]
    exact mul_lt_mul_of_pos_left hlt (zpow_two_pos k)
  have hlow : -1022 < k + unitExponent x + 53 :=
    (zpow_lt_zpow_iff_right₀ (by norm_num : (1 : ℝ) < 2)).mp (hk.trans_lt hscaled)
  refine le_antisymm (unitExponent_le (by omega) hscaled) (le_unitExponent_of_le ?_)
  rw [abs_scale, add_assoc, zpow_add₀ (by norm_num)]
  exact mul_le_mul_of_nonneg_left hfull (zpow_two_pos k).le

/-- **A power of two moves one float to another** among the normal numbers. -/
theorem Representable.scale (hx : Representable x) (hnormal : (2 : ℝ) ^ (-1022 : ℤ) ≤ |x|)
    (hscaled : (2 : ℝ) ^ (-1022 : ℤ) ≤ |(2 : ℝ) ^ k * x|) : Representable ((2 : ℝ) ^ k * x) := by
  have hpower : OnGrid k ((2 : ℝ) ^ k) := ⟨1, by rw [Int.cast_one, one_mul]⟩
  rw [Representable, unitExponent_scale hnormal hscaled]
  exact hpower.mul hx

/-- **Rounding commutes with powers of two** within the range. -/
theorem InRange.rounded_scale (hx : InRange x) (hk : InRange ((2 : ℝ) ^ k * x)) :
    rounded ((2 : ℝ) ^ k * x) = (2 : ℝ) ^ k * rounded x := by
  have hpos := zpow_two_pos k
  rcases eq_or_ne x 0 with rfl | h0
  · rw [mul_zero, rounded_zero, mul_zero]
  · have hunit := unitExponent_scale (hx.normal h0) (hk.normal (mul_ne_zero hpos.ne' h0))
    rw [rounded, rounded, hunit, zpow_add₀ (by norm_num), mul_div_mul_left _ _ hpos.ne']
    ring

/-- **A float clear of both ends of the range**: it is finite, and its magnitude is above the smallest
normal number. -/
def IsClear (a : Float) : Prop := a.isFinite = true ∧ Float.ofBits 0x0010000000000000 < a.abs

instance (a : Float) : Decidable (IsClear a) := inferInstanceAs (Decidable (_ ∧ _))

theorem IsClear.lt_abs {a : Float} (ha : IsClear a) : (2 : ℝ) ^ (-1022 : ℤ) < |real a| := by
  obtain ⟨hfin, hlt⟩ := ha
  obtain ⟨hsmall, hvalue⟩ := power_spec (x := Float.ofBits 0x0010000000000000) (e := -1022) rfl
    (by decide) (by decide) (by decide)
  obtain ⟨habs, habsreal⟩ := abs_finite hfin
  rwa [lt_iff_real_lt hsmall habs, hvalue, habsreal] at hlt

theorem IsClear.real_ne_zero {a : Float} (ha : IsClear a) : real a ≠ 0 :=
  abs_pos.mp ((zpow_two_pos _).trans ha.lt_abs)

/-- **An exact result that is rounded to a clear float** is in range. -/
theorem IsClear.inRange {a : Float} (ha : IsClear a) (hx : value a = clamp (rounded x)) :
    InRange x := by
  have hreal := real_eq_rounded hx ha.1
  refine ⟨fun _ => ?_, hreal ▸ abs_real_lt ha.1⟩
  have hlt := ha.lt_abs
  rw [hreal, abs_rounded] at hlt
  exact (lt_of_lt_rounded (representable_zpow (by norm_num)) hlt).le

theorem IsClear.inRange_real {a : Float} (ha : IsClear a) : InRange (real a) :=
  ha.inRange (clamp_rounded_real ha.1).symm

/-! ## Scaled floats -/

/-- **`a'` is `2 ^ k` times `a`**, both finite. -/
structure Scaled (k : ℤ) (a a' : Float) : Prop where
  finite : a.isFinite = true
  finite' : a'.isFinite = true
  real_eq : real a' = (2 : ℝ) ^ k * real a

variable {a a' b b' : Float}

theorem Scaled.refl (ha : a.isFinite = true) : Scaled 0 a a where
  finite := ha
  finite' := ha
  real_eq := by rw [zpow_zero, one_mul]

theorem scaled_zero (k : ℤ) : Scaled k 0 0 where
  finite := isFinite_zero
  finite' := isFinite_zero
  real_eq := by rw [real_zero, mul_zero]

theorem Scaled.real_eq_zero_iff (h : Scaled k a a') : real a' = 0 ↔ real a = 0 := by
  rw [h.real_eq, mul_eq_zero, or_iff_right (zpow_two_pos k).ne']

theorem Scaled.abs (h : Scaled k a a') : Scaled k a.abs a'.abs where
  finite := (abs_finite h.finite).1
  finite' := (abs_finite h.finite').1
  real_eq := by rw [(abs_finite h.finite).2, (abs_finite h.finite').2, h.real_eq, abs_scale]

/-! ## Operations -/

/-- **A rounded operation within the range** takes scaled exact results to scaled floats. -/
theorem scaled_of_rounded {x x' : ℝ} (h : IsNumber a ∧ value a = clamp (rounded x))
    (h' : IsNumber a' ∧ value a' = clamp (rounded x')) (hx : InRange x) (hx' : InRange x')
    (hscale : x' = (2 : ℝ) ^ k * x) : Scaled k a a' := by
  obtain ⟨hnum, hvalue⟩ := h
  obtain ⟨hnum', hvalue'⟩ := h'
  rw [clamp_of_lt hx.finite] at hvalue
  rw [clamp_of_lt hx'.finite] at hvalue'
  refine ⟨isFinite_of_value hnum hvalue, isFinite_of_value hnum' hvalue', ?_⟩
  subst hscale
  rw [real_eq_of_value hvalue', real_eq_of_value hvalue, hx.rounded_scale hx']

/-- **Scales multiply in a product.** -/
theorem Scaled.mul (ha : Scaled k a a') (hb : Scaled l b b') (h : InRange (real a * real b))
    (h' : InRange (real a' * real b')) : Scaled (k + l) (a * b) (a' * b') := by
  refine scaled_of_rounded (mul_spec ha.finite hb.finite) (mul_spec ha.finite' hb.finite') h h' ?_
  rw [ha.real_eq, hb.real_eq, zpow_add₀ (by norm_num)]
  ring

/-- **A common scale stays in a difference.** -/
theorem Scaled.sub (ha : Scaled k a a') (hb : Scaled k b b') (h : InRange (real a - real b))
    (h' : InRange (real a' - real b')) : Scaled k (a - b) (a' - b') := by
  refine scaled_of_rounded (sub_spec ha.finite hb.finite) (sub_spec ha.finite' hb.finite') h h' ?_
  rw [ha.real_eq, hb.real_eq, mul_sub]

/-- **Scales divide in a quotient.** -/
theorem Scaled.div (ha : Scaled k a a') (hb : Scaled l b b') (h0 : real b ≠ 0)
    (h : InRange (real a / real b)) (h' : InRange (real a' / real b')) :
    Scaled (k - l) (a / b) (a' / b') := by
  have h0' : real b' ≠ 0 := mt hb.real_eq_zero_iff.mp h0
  refine scaled_of_rounded (div_spec ha.finite hb.finite h0) (div_spec ha.finite' hb.finite' h0') h h' ?_
  rw [ha.real_eq, hb.real_eq, zpow_sub₀ (by norm_num), mul_div_mul_comm]

/-! ## Comparisons -/

/-- **A common scale does not change the order.** -/
theorem Scaled.lt_iff (ha : Scaled k a a') (hb : Scaled k b b') : a' < b' ↔ a < b := by
  rw [lt_iff_real_lt ha.finite hb.finite, lt_iff_real_lt ha.finite' hb.finite', ha.real_eq, hb.real_eq]
  exact mul_lt_mul_iff_right₀ (zpow_two_pos k)

/-- A zero stays a zero. -/
theorem Scaled.beq_zero (h : Scaled k a a') : (a' == 0) = (a == 0) := by
  have hzero : ∀ {c : Float}, c.isFinite = true → ((c == 0) = true ↔ real c = 0) := fun hc => by
    rw [beq_iff, value_zero, ← coe_real hc, EReal.coe_eq_zero]
    exact and_iff_right (isNumber_of_isFinite hc) |>.trans (and_iff_right zero_isNumber)
  rw [Bool.eq_iff_iff, hzero h.finite', hzero h.finite, h.real_eq_zero_iff]

theorem Scaled.larger (ha : Scaled k a a') (hb : Scaled k b b') :
    Scaled k (larger a b) (larger a' b') := by
  have hnumber : ∀ {c : Float}, c.isFinite = true → ¬c.isNaN = true := fun hc =>
    Bool.eq_false_iff.mp (isNumber_of_isFinite hc)
  unfold Binary64.larger
  rw [if_neg (hnumber ha.finite), if_neg (hnumber hb.finite), if_neg (hnumber ha.finite'),
    if_neg (hnumber hb.finite')]
  simp only [ha.lt_iff hb]
  split_ifs
  · exact hb
  · exact ha

end CertifiedZeros.Binary64
