import CertifiedZeros.Proofs.Interval.Arithmetic

/-! # What interval division encloses

The exact quotients of two intervals reach their extremes at corners. A corner whose remainder was
lost is harmless as long as it is not an extreme, by **`div_mem_of_inner`**; **`inner_of_div_mem`** says
that it is harmful otherwise. This hard direction compares the corners that share a rounded quotient:

* **`remainder_le_of_max`** — at the corner with the greatest quotient the remainder is greatest,
  too, for any common value taken for the quotient.
* **`ofQuotient_hi_le_of_max`** — so when the remainder vanishes there, no other corner moves its
  upper end beyond the common rounded quotient. -/

namespace CertifiedZeros.Interval

open Binary64

variable {X Y : Interval} {x y : ℝ} {a b a' b' g : Float}

/-! ## Remainders at the corners -/

/-- **The remainder is greatest at the greatest quotient.** Here `u` and `v` are dividend and
divisor with their signs arranged so that the divisor is positive, and `q` is taken for the
quotient. -/
theorem remainder_le_of_max {u w v v' q : ℝ} (hv : 0 < v) (hv' : 0 < v') (hpos : 0 < q → 0 < u)
    (hneg : q < 0 → u < 0) (hu : w / v ≤ u / v) (huv : u / v' ≤ u / v) :
    w - q * v' ≤ u - q * v := by
  have hw : w ≤ u := (div_le_div_iff_of_pos_right hv).mp hu
  have hqv : q * v ≤ q * v' := by
    rw [div_le_div_iff₀ hv' hv] at huv
    rcases lt_trichotomy q 0 with hq | rfl | hq
    · have hle : v' ≤ v := le_of_not_gt fun h =>
        absurd huv (not_le.mpr (mul_lt_mul_of_neg_left h (hneg hq)))
      exact mul_le_mul_of_nonpos_left hle hq.le
    · simp
    · exact mul_le_mul_of_nonneg_left (le_of_mul_le_mul_left huv (hpos hq)) hq.le
  linarith

/-- The sign of a real number as a factor. -/
noncomputable def sideFactor (b : Float) : ℝ := if 0 < real b then 1 else -1

theorem sideFactor_mul_self (b : Float) : sideFactor b * real b = |real b| := by
  unfold sideFactor
  split_ifs with h
  · rw [one_mul, abs_of_pos h]
  · rw [neg_one_mul, abs_of_nonpos (not_lt.mp h)]

/-- A quotient with its signs moved to the dividend. -/
theorem sideFactor_mul_div (a b : Float) :
    sideFactor b * real a / |real b| = real a / real b := by
  unfold sideFactor
  split_ifs with h
  · rw [one_mul, abs_of_pos h]
  · rw [neg_one_mul, abs_of_nonpos (not_lt.mp h), neg_div_neg_eq]

/-- **The sided remainder**, rounded once. -/
theorem value_sidedRemainder (ha : a.isFinite = true) (hb : b.isFinite = true)
    (hq : (a / b).isFinite = true) :
    IsNumber (sidedRemainder a b) ∧
      value (sidedRemainder a b)
        = clamp (rounded (sideFactor b * real a - real (a / b) * |real b|)) := by
  obtain ⟨hnum, hval⟩ := fma_remainder_spec ha hb hq
  have hneg := neg_spec hnum
  unfold sideFactor sidedRemainder
  by_cases h : 0 < real b
  · have hb0 : b > 0 := (pos_iff hb).mpr h
    rw [if_pos hb0, if_pos h, abs_of_pos h, one_mul]
    exact ⟨hnum, hval⟩
  · have hb0 : ¬b > 0 := fun hb' => h ((pos_iff hb).mp hb')
    rw [if_neg hb0, if_neg h, abs_of_nonpos (not_lt.mp h), hneg.2, hval, ← clamp_neg, ← rounded_neg]
    refine ⟨hneg.1, ?_⟩
    congr 2
    ring

/-! ## Which way an end can move -/

theorem besides_hi_le (herr : ¬0 < b) : value (besides a b).hi ≤ value a := by
  unfold besides
  rw [if_neg herr]
  split_ifs <;> exact le_rfl

theorem le_besides_lo (herr : ¬b < 0) : value a ≤ value (besides a b).lo := by
  unfold besides
  rw [if_neg herr]
  split_ifs <;> exact le_rfl

theorem besides_hi_le_nextUp (ha : IsNumber a) : value (besides a b).hi ≤ value (nextUp a) := by
  unfold besides
  split_ifs
  · exact le_rfl
  · exact le_nextUp ha
  · exact le_nextUp ha

theorem nextDown_le_besides_lo (ha : IsNumber a) :
    value (nextDown a) ≤ value (besides a b).lo := by
  unfold besides
  split_ifs
  · exact nextDown_le ha
  · exact le_rfl
  · exact nextDown_le ha

theorem value_neg_largest :
    IsNumber (-largest) ∧ value (-largest) = ((-(limit - topUnit) : ℝ) : EReal) := by
  obtain ⟨hnum, hval⟩ := value_largest
  have hneg := neg_spec hnum
  rw [hval, ← EReal.coe_neg] at hneg
  exact hneg

/-- Every finite float lies between the largest ones of either sign. -/
theorem value_between_largest (hg : g.isFinite = true) :
    value (-largest) ≤ value g ∧ value g ≤ value largest := by
  have hbound := abs_le.mp ((representable_real hg).abs_le_of_lt_limit (abs_real_lt hg))
  rw [value_neg_largest.2, value_largest.2, ← coe_real hg, EReal.coe_le_coe_iff,
    EReal.coe_le_coe_iff]
  exact hbound

/-- **An upper end stays below every float above the rounded quotient.** -/
theorem ofQuotient_hi_le (ha : a.isFinite = true) (hb : b.isFinite = true) (h0 : real b ≠ 0)
    (hg : g.isFinite = true) (hlt : value (a / b) < value g) :
    value (ofQuotient a b).hi ≤ value g := by
  obtain ⟨hnum, hval⟩ := div_spec ha hb h0
  have hnext := nextUp_le_of_value_lt hnum (isNumber_of_isFinite hg) hlt
  rcases ofQuotient_cases ha hb with ⟨hra, hcase⟩ | ⟨hq, -, hcase⟩ | ⟨hq, -, hcase⟩ | ⟨hq, hcase⟩ <;>
    rw [hcase]
  · rw [hval, hra, zero_div, clamp_rounded_zero] at hlt
    exact value_zero.le.trans hlt.le
  · exact hnext
  · exact (besides_hi_le_nextUp hnum).trans hnext
  · have hbot : value (a / b) = ⊥ :=
      (hnum.value_of_not_isFinite hq).resolve_left fun h => not_top_lt (h ▸ hlt)
    have hne : ¬(a / b == infinity) = true := by
      rw [beq_infinity_iff hnum, hbot]
      exact bot_ne_top
    rw [ofOverflow, if_neg hne, if_pos ((beq_neg_infinity_iff hnum).mpr hbot)]
    exact (value_between_largest hg).1

/-- **A lower end stays above every float below the rounded quotient.** -/
theorem le_ofQuotient_lo (ha : a.isFinite = true) (hb : b.isFinite = true) (h0 : real b ≠ 0)
    (hg : g.isFinite = true) (hlt : value g < value (a / b)) :
    value g ≤ value (ofQuotient a b).lo := by
  obtain ⟨hnum, hval⟩ := div_spec ha hb h0
  have hnext := le_nextDown_of_value_lt hnum (isNumber_of_isFinite hg) hlt
  rcases ofQuotient_cases ha hb with ⟨hra, hcase⟩ | ⟨hq, -, hcase⟩ | ⟨hq, -, hcase⟩ | ⟨hq, hcase⟩ <;>
    rw [hcase]
  · rw [hval, hra, zero_div, clamp_rounded_zero] at hlt
    exact hlt.le.trans value_zero.ge
  · exact hnext
  · exact hnext.trans (nextDown_le_besides_lo hnum)
  · have htop : value (a / b) = ⊤ :=
      (hnum.value_of_not_isFinite hq).resolve_right fun h => not_lt_bot (h ▸ hlt)
    rw [ofOverflow, if_pos ((beq_infinity_iff hnum).mpr htop)]
    exact (value_between_largest hg).2

/-! ## Corners that share a rounded quotient -/

/-- What a vanishing remainder says about the sided one. -/
theorem rounded_remainder_eq_zero (ha : a.isFinite = true) (hb : b.isFinite = true)
    (hvan : remainderVanishes a b = true) :
    (a / b).isFinite = true ∧ ¬(a / b).abs < residualFloor ∧
      rounded (sideFactor b * real a - real (a / b) * |real b|) = 0 := by
  simp only [remainderVanishes, Bool.and_eq_true, Bool.not_eq_true', decide_eq_false_iff_not] at hvan
  obtain ⟨⟨hq, hsmall⟩, hr⟩ := hvan
  refine ⟨hq, hsmall, ?_⟩
  have hnum := (fma_remainder_spec ha hb hq).1
  have hneg := (neg_spec hnum).2
  rw [beq_zero_iff hnum] at hr
  rw [hr, neg_zero] at hneg
  have hval := (value_sidedRemainder ha hb hq).2
  have hzero : value (sidedRemainder a b) = 0 := by
    unfold sidedRemainder
    split_ifs
    · exact hr
    · exact hneg
  rw [hzero] at hval
  exact clamp_eq_coe (y := 0) hval.symm

/-- A rounded quotient other than zero has the sign of the exact one. -/
theorem sign_of_quotient (ha : a.isFinite = true) (hb : b.isFinite = true) (hb0 : real b ≠ 0)
    (hq : (a / b).isFinite = true) :
    (0 < real (a / b) → 0 < sideFactor b * real a) ∧
      (real (a / b) < 0 → sideFactor b * real a < 0) := by
  have hquot := real_eq_rounded (div_spec ha hb hb0).2 hq
  have hv := abs_pos.mpr hb0
  rw [hquot, ← sideFactor_mul_div]
  refine ⟨fun h => ?_, fun h => ?_⟩
  · exact (div_pos_iff_of_pos_right hv).mp (lt_of_lt_rounded representable_zero h)
  · have hneg := lt_of_rounded_lt representable_zero h
    by_contra hge
    exact absurd hneg (not_lt.mpr (div_nonneg (not_lt.mp hge) hv.le))

/-- Floats of one value are of one size. -/
theorem abs_lt_floor_congr {q q' : Float} (hq : q.isFinite = true) (hq' : q'.isFinite = true)
    (h : value q' = value q) : q'.abs < residualFloor ↔ q.abs < residualFloor := by
  have hreal : real q' = real q := by rw [real, real, h]
  obtain ⟨hfin, habs⟩ := abs_finite hq
  obtain ⟨hfin', habs'⟩ := abs_finite hq'
  rw [lt_iff, lt_iff, ← coe_real hfin, ← coe_real hfin', habs, habs', hreal]
  simp only [isNumber_of_isFinite hfin, isNumber_of_isFinite hfin']

section

variable (ha : a.isFinite = true) (hb : b.isFinite = true) (hb0 : real b ≠ 0)
  (ha' : a'.isFinite = true) (hb' : b'.isFinite = true) (hb0' : real b' ≠ 0)
  (hside : sideFactor b' = sideFactor b)

include ha hb hb0 ha' hb' hb0' hside

/-- **No other corner reaches beyond the greatest quotient when its remainder vanishes.** -/
theorem ofQuotient_hi_le_of_max (hvan : remainderVanishes a b = true)
    (h : real a' / real b' ≤ real a / real b) (hu : real a' / real b ≤ real a / real b)
    (huv : real a / real b' ≤ real a / real b) :
    value (ofQuotient a' b').hi ≤ value (a / b) := by
  obtain ⟨hq, hsmall, hzero⟩ := rounded_remainder_eq_zero ha hb hvan
  have hsign := sign_of_quotient ha hb hb0 hq
  have hquot := div_spec ha hb hb0
  have hquot' := div_spec ha' hb' hb0'
  have hle : value (a' / b') ≤ value (a / b) := by
    rw [hquot.2, hquot'.2]
    exact clamp_mono (rounded_mono h)
  rcases hle.lt_or_eq with hlt | heq
  · exact ofQuotient_hi_le ha' hb' hb0' hq hlt
  rcases ofQuotient_cases ha' hb' with ⟨hra, hcase⟩ | ⟨hq', hs, hcase⟩ | ⟨hq', -, hcase⟩ |
    ⟨hq', -⟩
  · rw [hcase, ← heq, hquot'.2, hra, zero_div, clamp_rounded_zero]
    exact value_zero.le
  · exact absurd ((abs_lt_floor_congr hq hq' heq).mp hs) hsmall
  · rw [hcase, ← heq]
    refine besides_hi_le fun hpos => ?_
    have hreal : real (a' / b') = real (a / b) := by rw [real, real, heq]
    obtain ⟨-, hval⟩ := value_sidedRemainder ha' hb' hq'
    have hrem : sideFactor b' * real a' - real (a / b) * |real b'|
        ≤ sideFactor b * real a - real (a / b) * |real b| := by
      rw [← sideFactor_mul_div a' b, ← sideFactor_mul_div a b] at hu
      rw [← sideFactor_mul_div a b', ← sideFactor_mul_div a b, hside] at huv
      rw [hside]
      exact remainder_le_of_max (abs_pos.mpr hb0) (abs_pos.mpr hb0') hsign.1 hsign.2 hu huv
    have hpos' := (lt_iff.mp hpos).2.2
    rw [value_zero, hval, hreal, clamp_pos_iff] at hpos'
    exact absurd (hzero ▸ rounded_mono hrem) (not_le.mpr hpos')
  · have hfin := isFinite_of_value hquot'.1 (heq.trans (coe_real hq).symm)
    exact absurd (hfin.symm.trans hq') (by decide)

/-- **No other corner reaches below the least quotient when its remainder vanishes.** -/
theorem le_ofQuotient_lo_of_min (hvan : remainderVanishes a b = true)
    (h : real a / real b ≤ real a' / real b') (hu : real a / real b ≤ real a' / real b)
    (huv : real a / real b ≤ real a / real b') :
    value (a / b) ≤ value (ofQuotient a' b').lo := by
  obtain ⟨hq, hsmall, hzero⟩ := rounded_remainder_eq_zero ha hb hvan
  have hsign := sign_of_quotient ha hb hb0 hq
  have hquot := div_spec ha hb hb0
  have hquot' := div_spec ha' hb' hb0'
  have hle : value (a / b) ≤ value (a' / b') := by
    rw [hquot.2, hquot'.2]
    exact clamp_mono (rounded_mono h)
  rcases hle.lt_or_eq with hlt | heq
  · exact le_ofQuotient_lo ha' hb' hb0' hq hlt
  rcases ofQuotient_cases ha' hb' with ⟨hra, hcase⟩ | ⟨hq', hs, hcase⟩ | ⟨hq', -, hcase⟩ |
    ⟨hq', -⟩
  · rw [hcase, heq, hquot'.2, hra, zero_div, clamp_rounded_zero]
    exact value_zero.ge
  · exact absurd ((abs_lt_floor_congr hq hq' heq.symm).mp hs) hsmall
  · rw [hcase, heq]
    refine le_besides_lo fun hneg => ?_
    have hreal : real (a' / b') = real (a / b) := by rw [real, real, heq]
    obtain ⟨-, hval⟩ := value_sidedRemainder ha' hb' hq'
    have hrem : sideFactor b * real a - real (a / b) * |real b|
        ≤ sideFactor b' * real a' - real (a / b) * |real b'| := by
      rw [← sideFactor_mul_div a' b, ← sideFactor_mul_div a b] at hu
      rw [← sideFactor_mul_div a b', ← sideFactor_mul_div a b, hside] at huv
      -- the greatest remainder, for dividends and quotient with the opposite sign
      have hmax := remainder_le_of_max (u := -(sideFactor b * real a))
        (w := -(sideFactor b * real a')) (q := -real (a / b)) (abs_pos.mpr hb0) (abs_pos.mpr hb0')
        (fun h => by linarith [hsign.2 (neg_pos.mp h)]) (fun h => by linarith [hsign.1 (neg_lt_zero.mp h)])
        (by rw [neg_div, neg_div]; linarith) (by rw [neg_div, neg_div]; linarith)
      rw [hside]
      linarith
    have hneg' := (lt_iff.mp hneg).2.2
    rw [value_zero, hval, hreal, clamp_neg_iff] at hneg'
    exact absurd (hzero ▸ rounded_mono hrem) (not_le.mpr hneg')
  · have hfin := isFinite_of_value hquot'.1 (heq.symm.trans (coe_real hq).symm)
    exact absurd (hfin.symm.trans hq') (by decide)

end

/-! ## Quotients of members -/

/-- Reciprocals of numbers of one sign are in the opposite order. -/
theorem inv_between {yl yh y : ℝ} (hyl : yl ≤ y) (hyh : y ≤ yh) (h0 : 0 < yl ∨ yh < 0) :
    yh⁻¹ ≤ y⁻¹ ∧ y⁻¹ ≤ yl⁻¹ := by
  rcases h0 with hpos | hneg
  · exact ⟨inv_anti₀ (hpos.trans_le hyl) hyh, inv_anti₀ hpos hyl⟩
  · have hy : y < 0 := hyh.trans_lt hneg
    exact ⟨(inv_le_inv_of_neg hneg hy).mpr hyh, (inv_le_inv_of_neg hy (hyl.trans_lt hy)).mpr hyl⟩

/-- **A quotient of members is at least one of the corner quotients** when the divisors have one
sign. -/
theorem exists_corner_le (hx : real X.lo ≤ x ∧ x ≤ real X.hi) (hy : real Y.lo ≤ y ∧ y ≤ real Y.hi)
    (h0 : 0 < real Y.lo ∨ real Y.hi < 0) :
    ∃ a ∈ [X.lo, X.hi], ∃ b ∈ [Y.lo, Y.hi], real a / real b ≤ x / y := by
  obtain ⟨hlo, hhi⟩ := inv_between hy.1 hy.2 h0
  obtain ⟨a, ha, hxa⟩ : ∃ a ∈ [X.lo, X.hi], real a * y⁻¹ ≤ x * y⁻¹ := by
    rcases le_total 0 y⁻¹ with hc | hc
    · exact ⟨X.lo, by simp, mul_le_mul_of_nonneg_right hx.1 hc⟩
    · exact ⟨X.hi, by simp, mul_le_mul_of_nonpos_right hx.2 hc⟩
  obtain ⟨b, hb, hyb⟩ : ∃ b ∈ [Y.lo, Y.hi], real a * (real b)⁻¹ ≤ real a * y⁻¹ := by
    rcases le_total 0 (real a) with hc | hc
    · exact ⟨Y.hi, by simp, mul_le_mul_of_nonneg_left hlo hc⟩
    · exact ⟨Y.lo, by simp, mul_le_mul_of_nonpos_left hhi hc⟩
  exact ⟨a, ha, b, hb, by rw [div_eq_mul_inv, div_eq_mul_inv]; exact hyb.trans hxa⟩

/-- **A quotient of members is at most one of the corner quotients** when the divisors have one
sign. -/
theorem exists_le_corner (hx : real X.lo ≤ x ∧ x ≤ real X.hi) (hy : real Y.lo ≤ y ∧ y ≤ real Y.hi)
    (h0 : 0 < real Y.lo ∨ real Y.hi < 0) :
    ∃ a ∈ [X.lo, X.hi], ∃ b ∈ [Y.lo, Y.hi], x / y ≤ real a / real b := by
  obtain ⟨hlo, hhi⟩ := inv_between hy.1 hy.2 h0
  obtain ⟨a, ha, hxa⟩ : ∃ a ∈ [X.lo, X.hi], x * y⁻¹ ≤ real a * y⁻¹ := by
    rcases le_total 0 y⁻¹ with hc | hc
    · exact ⟨X.hi, by simp, mul_le_mul_of_nonneg_right hx.2 hc⟩
    · exact ⟨X.lo, by simp, mul_le_mul_of_nonpos_right hx.1 hc⟩
  obtain ⟨b, hb, hyb⟩ : ∃ b ∈ [Y.lo, Y.hi], real a * y⁻¹ ≤ real a * (real b)⁻¹ := by
    rcases le_total 0 (real a) with hc | hc
    · exact ⟨Y.lo, by simp, mul_le_mul_of_nonneg_left hhi hc⟩
    · exact ⟨Y.hi, by simp, mul_le_mul_of_nonpos_left hlo hc⟩
  exact ⟨a, ha, b, hb, by rw [div_eq_mul_inv, div_eq_mul_inv]; exact hxa.trans hyb⟩

/-- Among four corners one has the greatest value. -/
theorem exists_max_corner (f : Float → Float → ℝ) (X Y : Interval) :
    ∃ a ∈ [X.lo, X.hi], ∃ b ∈ [Y.lo, Y.hi],
      ∀ a' ∈ [X.lo, X.hi], ∀ b' ∈ [Y.lo, Y.hi], f a' b' ≤ f a b := by
  obtain ⟨⟨a, b⟩, hab, hmax⟩ := Finset.exists_max_image
    (([X.lo, X.hi].toFinset) ×ˢ ([Y.lo, Y.hi].toFinset)) (fun p => f p.1 p.2) ⟨(X.lo, Y.lo), by simp⟩
  rw [Finset.mem_product, List.mem_toFinset, List.mem_toFinset] at hab
  refine ⟨a, hab.1, b, hab.2, fun a' ha' b' hb' => hmax (a', b') ?_⟩
  rw [Finset.mem_product, List.mem_toFinset, List.mem_toFinset]
  exact ⟨ha', hb'⟩

/-- The divisor holds zero exactly when the code says so. -/
theorem zero_mem_iff (hY : Y.HasNumbers) : (0 : ℝ) ∈ Y ↔ (Y.lo ≤ 0 && Y.hi ≥ 0 : Bool) = true := by
  rw [Bool.and_eq_true, decide_eq_true_iff, decide_eq_true_iff, nonpos_iff hY.1, nonneg_iff hY.2,
    mem_iff, EReal.coe_zero]
  exact ⟨fun h => h.2.2, fun h => ⟨hY.1, hY.2, h⟩⟩

theorem mem_entire (x : ℝ) : x ∈ entire := by
  have hneg := neg_spec infinity_isNumber
  refine ⟨hneg.1, infinity_isNumber, ?_, ?_⟩
  · change value (-infinity) ≤ _
    rw [hneg.2, value_infinity]
    exact bot_le
  · change _ ≤ value infinity
    rw [value_infinity]
    exact le_top

/-! ## Quotients of intervals -/

/-- Every corner whose quotient was rounded below the exact one, unnoticed, has a corner beyond it;
and so for those rounded above. -/
def LossIsInner (X Y : Interval) : Prop :=
  ∀ a ∈ [X.lo, X.hi], ∀ b ∈ [Y.lo, Y.hi],
    (quotientBelow a b →
      ∃ a' ∈ [X.lo, X.hi], ∃ b' ∈ [Y.lo, Y.hi], real a / real b < real a' / real b') ∧
    (quotientAbove a b →
      ∃ a' ∈ [X.lo, X.hi], ∃ b' ∈ [Y.lo, Y.hi], real a' / real b' < real a / real b)

section

variable (hXl : X.lo.isFinite = true) (hXh : X.hi.isFinite = true) (hYl : Y.lo.isFinite = true)
  (hYh : Y.hi.isFinite = true)

include hYl hYh

/-- Divisors that do not hold zero have one sign. -/
theorem one_sign (h0 : (0 : ℝ) ∉ Y) : 0 < real Y.lo ∨ real Y.hi < 0 := by
  rw [mem_iff_real hYl hYh, not_and_or, not_le, not_le] at h0
  exact h0

/-- The divisors at the corners. -/
theorem corner_divisor (h0 : (0 : ℝ) ∉ Y) (hY : Y.lo ≤ Y.hi) {b : Float} (hb : b ∈ [Y.lo, Y.hi]) :
    b.isFinite = true ∧ real b ≠ 0 ∧ sideFactor b = sideFactor Y.lo := by
  have hle := ((mem_iff_real hYl hYh).mp (lo_mem hY hYl)).2
  simp only [List.mem_cons, List.not_mem_nil, or_false] at hb
  rcases one_sign hYl hYh h0 with hpos | hneg
  · have hall : 0 < real b ∧ b.isFinite = true := by
      rcases hb with rfl | rfl
      · exact ⟨hpos, hYl⟩
      · exact ⟨hpos.trans_le hle, hYh⟩
    exact ⟨hall.2, hall.1.ne', by rw [sideFactor, sideFactor, if_pos hall.1, if_pos hpos]⟩
  · have hall : real b < 0 ∧ b.isFinite = true := by
      rcases hb with rfl | rfl
      · exact ⟨hle.trans_lt hneg, hYl⟩
      · exact ⟨hneg, hYh⟩
    refine ⟨hall.2, hall.1.ne, ?_⟩
    rw [sideFactor, sideFactor, if_neg hall.1.le.not_gt, if_neg (hle.trans_lt hneg).le.not_gt]

include hXl hXh

/-- The corners of a division without zero, and the ends of their hull. -/
theorem division_corners (h0 : (0 : ℝ) ∉ Y) (hY : Y.lo ≤ Y.hi) :
    (∀ a ∈ [X.lo, X.hi], ∀ b ∈ [Y.lo, Y.hi],
        a.isFinite = true ∧ b.isFinite = true ∧ real b ≠ 0 ∧ sideFactor b = sideFactor Y.lo) ∧
      (corners ofQuotient X Y).HasNumbers ∧
      (∀ r : EReal, value (corners ofQuotient X Y).lo ≤ r
        ↔ ∃ a ∈ [X.lo, X.hi], ∃ b ∈ [Y.lo, Y.hi], value (ofQuotient a b).lo ≤ r) ∧
      (∀ r : EReal, r ≤ value (corners ofQuotient X Y).hi
        ↔ ∃ a ∈ [X.lo, X.hi], ∃ b ∈ [Y.lo, Y.hi], r ≤ value (ofQuotient a b).hi) := by
  have hdividend : ∀ a ∈ [X.lo, X.hi], a.isFinite = true := by
    simpa only [List.mem_cons, List.not_mem_nil, or_false, forall_eq_or_imp, forall_eq] using
      And.intro hXl hXh
  have hall : ∀ a ∈ [X.lo, X.hi], ∀ b ∈ [Y.lo, Y.hi],
      a.isFinite = true ∧ b.isFinite = true ∧ real b ≠ 0 ∧ sideFactor b = sideFactor Y.lo :=
    fun a ha b hb => ⟨hdividend a ha, corner_divisor hYl hYh h0 hY hb⟩
  refine ⟨hall, corners_spec fun a ha b hb => ?_⟩
  obtain ⟨hfa, hfb, hb0, -⟩ := hall a ha b hb
  exact ⟨(ofQuotient_spec hfa hfb hb0).1, (ofQuotient_spec hfa hfb hb0).2.1⟩

/-- **Quotients are enclosed** when every loss is inner. -/
theorem div_mem_of_inner (h0 : (0 : ℝ) ∉ Y) (hY : Y.lo ≤ Y.hi) (hinner : LossIsInner X Y)
    (hx : x ∈ X) (hy : y ∈ Y) : x / y ∈ corners ofQuotient X Y := by
  have hx' := (mem_iff_real hXl hXh).mp hx
  have hy' := (mem_iff_real hYl hYh).mp hy
  have hsign := one_sign hYl hYh h0
  obtain ⟨hall, hnum, hlower, hupper⟩ := division_corners hXl hXh hYl hYh h0 hY
  refine brackets_iff.mpr ⟨hnum, (hlower _).mpr ?_, (hupper _).mpr ?_⟩
  · -- the least corner was not lost, since no corner lies below it
    obtain ⟨a, ha, b, hb, hmin⟩ := exists_max_corner (fun a b => -(real a / real b)) X Y
    obtain ⟨hfa, hfb, hb0, -⟩ := hall a ha b hb
    have hkept : ¬quotientAbove a b := fun hlost => by
      obtain ⟨a', ha', b', hb', hlt⟩ := (hinner a ha b hb).2 hlost
      linarith [hmin a' ha' b' hb']
    obtain ⟨u, hu, v, hv, hle⟩ := exists_corner_le hx' hy' hsign
    refine ⟨a, ha, b, hb, ((ofQuotient_spec hfa hfb hb0).2.2.1.mpr hkept).trans ?_⟩
    rw [EReal.coe_le_coe_iff]
    linarith [hmin u hu v hv]
  · obtain ⟨a, ha, b, hb, hmax⟩ := exists_max_corner (fun a b => real a / real b) X Y
    obtain ⟨hfa, hfb, hb0, -⟩ := hall a ha b hb
    have hkept : ¬quotientBelow a b := fun hlost => by
      obtain ⟨a', ha', b', hb', hlt⟩ := (hinner a ha b hb).1 hlost
      linarith [hmax a' ha' b' hb']
    obtain ⟨u, hu, v, hv, hle⟩ := exists_le_corner hx' hy' hsign
    refine ⟨a, ha, b, hb, le_trans ?_ ((ofQuotient_spec hfa hfb hb0).2.2.2.mpr hkept)⟩
    rw [EReal.coe_le_coe_iff]
    exact hle.trans (hmax u hu v hv)

/-- **A loss at an extreme corner is harmful**: the quotient of the two ends is not enclosed. -/
theorem inner_of_div_mem (h0 : (0 : ℝ) ∉ Y) (hX : X.lo ≤ X.hi) (hY : Y.lo ≤ Y.hi)
    (hmem : ∀ x ∈ X, ∀ y ∈ Y, x / y ∈ corners ofQuotient X Y) : LossIsInner X Y := by
  obtain ⟨hall, -, hlower, hupper⟩ := division_corners hXl hXh hYl hYh h0 hY
  have hends : ∀ a ∈ [X.lo, X.hi], real a ∈ X := by
    simpa only [List.mem_cons, List.not_mem_nil, or_false, forall_eq_or_imp, forall_eq] using
      And.intro (lo_mem hX hXl) (hi_mem hX hXh)
  have hends' : ∀ b ∈ [Y.lo, Y.hi], real b ∈ Y := by
    simpa only [List.mem_cons, List.not_mem_nil, or_false, forall_eq_or_imp, forall_eq] using
      And.intro (lo_mem hY hYl) (hi_mem hY hYh)
  intro a ha b hb
  obtain ⟨hfa, hfb, hb0, hside⟩ := hall a ha b hb
  obtain ⟨-, -, hlo, hhi⟩ := mem_iff.mp (hmem _ (hends a ha) _ (hends' b hb))
  refine ⟨fun hlost => ?_, fun hlost => ?_⟩
  · by_contra hno
    simp only [not_exists, not_and, not_lt] at hno
    obtain ⟨a', ha', b', hb', hle⟩ := (hupper _).mp hhi
    obtain ⟨hfa', hfb', hb0', hside'⟩ := hall a' ha' b' hb'
    have hbound := hle.trans (ofQuotient_hi_le_of_max hfa hfb hb0 hfa' hfb' hb0'
      (hside'.trans hside.symm) hlost.1 (hno a' ha' b' hb') (hno a' ha' b hb) (hno a ha b' hb'))
    rw [← coe_real (rounded_remainder_eq_zero hfa hfb hlost.1).1, EReal.coe_le_coe_iff] at hbound
    exact absurd hlost.2 (not_lt.mpr hbound)
  · by_contra hno
    simp only [not_exists, not_and, not_lt] at hno
    obtain ⟨a', ha', b', hb', hle⟩ := (hlower _).mp hlo
    obtain ⟨hfa', hfb', hb0', hside'⟩ := hall a' ha' b' hb'
    have hbound := (le_ofQuotient_lo_of_min hfa hfb hb0 hfa' hfb' hb0'
      (hside'.trans hside.symm) hlost.1 (hno a' ha' b' hb') (hno a' ha' b hb)
      (hno a ha b' hb')).trans hle
    rw [← coe_real (rounded_remainder_eq_zero hfa hfb hlost.1).1, EReal.coe_le_coe_iff] at hbound
    exact absurd hlost.2 (not_lt.mpr hbound)

end

end CertifiedZeros.Interval
