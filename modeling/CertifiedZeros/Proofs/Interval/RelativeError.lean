import CertifiedZeros.Proofs.Binary64.RelativeError
import CertifiedZeros.Proofs.Interval.Monotone

/-! # How wide a product is

The ends of an interval product are at most one float away from the rounded product, so that they miss
the exact one by a few roundoffs only:

* **`le_ofProduct_lo_relative`** — the lower end.
* **`ofProduct_hi_le_relative`**, **`real_ofProduct_hi_le`** — the upper end, short of an overflow. -/

namespace CertifiedZeros.Interval

open Binary64

variable {a b : Float}

/-- **The lower end of a product** that is not negative. -/
theorem le_ofProduct_lo_relative (ha : a.isFinite = true) (hb : b.isFinite = true)
    (h0 : 0 ≤ real a * real b) (hlt : real a * real b < limit) :
    ((real a * real b * (1 - 4 * unitRoundoff) - 5 * underflowError : ℝ) : EReal)
      ≤ value (ofProduct a b).lo := by
  obtain ⟨g, hg, hle, hrounded, hnear⟩ := exists_representable_below h0
  have hsmall := unitRoundoff_le
  have hη := underflowError_pos
  -- it is a float, because it lies between minus one and the product
  have hηle : underflowError ≤ 1 / 5 := by
    rw [underflowError]
    calc (2 : ℝ) ^ (-1075 : ℤ) ≤ (2 : ℝ) ^ (-3 : ℤ) := zpow_two_le (by norm_num)
      _ ≤ 1 / 5 := by norm_num
  have hrel := mul_le_mul_of_nonneg_left hsmall h0
  have hlimit : 1 < limit := lt_of_abs_lt (real_one ▸ abs_real_lt isFinite_one)
  have hlow : -limit < g := by linarith
  obtain ⟨f, hf, hreal⟩ := exists_float hg (abs_lt.mpr ⟨hlow, hle.trans_lt hlt⟩)
  refine (EReal.coe_le_coe_iff.mpr hnear).trans ?_
  rw [← hreal, coe_real hf]
  refine le_ofProduct_lo ha hb hf (hreal ▸ hle) fun _ _ => ?_
  rw [(mul_spec ha hb).2, ← coe_real hf, hreal]
  have hclamp : clamp g ≤ clamp (rounded (real a * real b)) := clamp_mono hrounded.le
  rw [clamp_of_lt (abs_lt.mpr ⟨hlow, hle.trans_lt hlt⟩)] at hclamp
  refine lt_of_le_of_ne hclamp fun heq => ?_
  exact hrounded.ne' (clamp_eq_coe heq.symm)

/-- **The upper end of a product** that is not negative, short of an overflow. -/
theorem ofProduct_hi_le_relative (ha : a.isFinite = true) (hb : b.isFinite = true)
    (h0 : 0 ≤ real a * real b)
    (hlt : real a * real b * (1 + 4 * unitRoundoff) + 5 * underflowError < limit) :
    value (ofProduct a b).hi
      ≤ ((real a * real b * (1 + 4 * unitRoundoff) + 5 * underflowError : ℝ) : EReal) := by
  obtain ⟨g, hg, hle, hrounded, hnear⟩ := exists_representable_above h0
  obtain ⟨hnegfin, hneg⟩ := neg_finite ha
  have habs : |-g| < limit := by
    rw [abs_neg, abs_of_nonneg (h0.trans hle)]
    exact hnear.trans_lt hlt
  obtain ⟨f, hf, hreal⟩ := exists_float hg.neg habs
  -- the opposite product has a lower end that is not below the opposite number
  have hlower : value f ≤ value (ofProduct (-a) b).lo := by
    refine le_ofProduct_lo hnegfin hb hf (by rw [hreal, hneg]; linarith) fun _ _ => ?_
    rw [(mul_spec hnegfin hb).2, ← coe_real hf, hreal, hneg, neg_mul, rounded_neg]
    have hclamp : clamp (-g) ≤ clamp (-rounded (real a * real b)) := clamp_mono (by linarith)
    rw [clamp_of_lt habs] at hclamp
    refine lt_of_le_of_ne hclamp fun heq => ?_
    have heq' := clamp_eq_coe heq.symm
    linarith
  rw [ofProduct_neg_lo, ← coe_real hf, hreal, EReal.coe_neg, EReal.neg_le_neg_iff] at hlower
  exact hlower.trans (EReal.coe_le_coe_iff.mpr hnear)

/-- **A finite upper end of a product** that is not negative. -/
theorem real_ofProduct_hi_le (ha : a.isFinite = true) (hb : b.isFinite = true)
    (h0 : 0 ≤ real a * real b) (hfin : (ofProduct a b).hi.isFinite = true) :
    real (ofProduct a b).hi ≤ real a * real b * (1 + 4 * unitRoundoff) + 5 * underflowError := by
  rcases lt_or_ge (real a * real b * (1 + 4 * unitRoundoff) + 5 * underflowError) limit with hlt | hge
  · have hle := ofProduct_hi_le_relative ha hb h0 hlt
    rwa [← coe_real hfin, EReal.coe_le_coe_iff] at hle
  · exact (lt_of_abs_lt (abs_real_lt hfin)).le.trans hge

end CertifiedZeros.Interval
