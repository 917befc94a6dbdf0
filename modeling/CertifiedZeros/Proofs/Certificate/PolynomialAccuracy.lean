import CertifiedZeros.Proofs.Certificate.RootAccuracy
import CertifiedZeros.Proofs.Certificate.UpperEnds
import CertifiedZeros.Proofs.Interval.RelativeError

/-! # How accurate the polynomial is

The polynomial of float bounds, rounded up, is compared with the exact one at a finite radius:

* **`Contracting.le_descentBelow`**, **`real_powerAbove_le`**, **`Contracting.squareAbove_le`** — the
  terms, in roundoffs of themselves and in underflows.
* **`Contracting.polynomialAbove_neg_of_le`** — with room for these errors, a negative polynomial is
  found negative. -/

namespace CertifiedZeros

open Binary64 CertifiedZeros.Interval

namespace Interval

variable {e : Float}

/-- The square of a radius is finite only below `2 ^ 512`. -/
theorem real_lt_of_powerAbove (he : 0 ≤ e) (hfin : e.isFinite = true)
    (hp : (powerAbove e 2).isFinite = true) : real e < (2 : ℝ) ^ (512 : ℤ) := by
  have he0 := real_nonneg he hfin
  have hle := (powerAbove_spec (isNumber_of_isFinite hfin) he0 (coe_real hfin).le 2).2
  rw [← coe_real hp, EReal.coe_le_coe_iff] at hle
  have hlt := hle.trans_lt (lt_of_abs_lt (abs_real_lt hp))
  refine lt_of_pow_lt_pow_left₀ 2 (zpow_two_pos _).le (hlt.trans_eq ?_)
  rw [limit, ← zpow_natCast, ← zpow_mul]
  norm_num

/-- **The square of a radius, rounded up.** -/
theorem real_powerAbove_le (he : 0 ≤ e) (hfin : e.isFinite = true)
    (hp : (powerAbove e 2).isFinite = true) : real (powerAbove e 2)
      ≤ real e ^ 2 * (1 + 9 * unitRoundoff) + 6 * underflowError * real e + 5 * underflowError := by
  have he0 := real_nonneg he hfin
  have hlt := real_lt_of_powerAbove he hfin hp
  have hη := underflowError_pos
  have hηle : underflowError ≤ 1 := (zpow_two_le (by norm_num)).trans_eq (zpow_zero 2)
  obtain ⟨hU0, hU⟩ := roundoff_mul_le he0
  -- the first power is rounded up as well
  have hfirst : value (powerAbove e 1)
      ≤ ((real e * (1 + 4 * unitRoundoff) + 5 * underflowError : ℝ) : EReal) := by
    have hbound := ofProduct_hi_le_relative isFinite_one hfin
    rw [real_one, one_mul] at hbound
    refine hbound he0 ?_
    have hlarge : 8 * (2 : ℝ) ^ (512 : ℤ) < limit := by
      calc 8 * (2 : ℝ) ^ (512 : ℤ) = (2 : ℝ) ^ (512 + (3 : ℕ) : ℤ) := by
            rw [zpow_two_add]
            ring
        _ < limit := zpow_two_lt (by norm_num)
    have hone : (1 : ℝ) ≤ (2 : ℝ) ^ (512 : ℤ) := one_le_zpow₀ (by norm_num) (by norm_num)
    generalize (2 : ℝ) ^ (512 : ℤ) = c at *
    linarith
  obtain ⟨hnum, hlow⟩ := powerAbove_spec (isNumber_of_isFinite hfin) he0 (coe_real hfin).le 1
  rw [pow_one] at hlow
  have hfin₁ := isFinite_of_between hnum hlow hfirst
  rw [← coe_real hfin₁, EReal.coe_le_coe_iff] at hfirst hlow
  have hsecond := real_ofProduct_hi_le hfin₁ hfin (mul_nonneg (he0.trans hlow) he0) hp
  rw [powerAbove_succ]
  refine hsecond.trans ?_
  have hstep := mul_le_mul_of_nonneg_right hfirst he0
  have hfactor : 0 ≤ 1 + 4 * unitRoundoff := by linarith [unitRoundoff_pos]
  have hUU := mul_le_mul_of_nonneg_left unitRoundoff_le
    (mul_nonneg unitRoundoff_pos.le (sq_nonneg (real e)))
  have hUη := mul_le_mul_of_nonneg_left hU hη.le
  calc real (powerAbove e 1) * real e * (1 + 4 * unitRoundoff) + 5 * underflowError
      ≤ (real e * (1 + 4 * unitRoundoff) + 5 * underflowError) * real e * (1 + 4 * unitRoundoff)
          + 5 * underflowError := by
        linarith [mul_le_mul_of_nonneg_right hstep hfactor]
    _ ≤ _ := by
        have hηe : 0 ≤ underflowError * real e := mul_nonneg hη.le he0
        linarith [mul_nonneg unitRoundoff_pos.le (sq_nonneg (real e))]

end Interval

namespace Bounds

/-- The quadratic term, with the errors of its two products. -/
noncomputable def squareBound (u : Bounds Float) (r : ℝ) : ℝ :=
  real u.z2 * r ^ 2 * (1 + 14 * unitRoundoff)
    + underflowError * (7 * (real u.z2 * r) + 6 * real u.z2 + 5)

variable {u : Bounds Float} {e : Float}

namespace Contracting

/-- **The slope, rounded down.** -/
theorem le_gapBelow (h : u.Contracting) : u.slope * (1 - 9 * unitRoundoff) ≤ real u.gapBelow := by
  obtain ⟨-, hpos, hone⟩ := h.slope_spec
  obtain ⟨hfin, -, -⟩ := h.gapBelow_spec
  obtain ⟨hnegfin, hneg⟩ := neg_finite h.z0_spec.1
  obtain ⟨g, hg, hle, -, hnear⟩ := exists_representable_below hpos.le
  obtain ⟨-, hη⟩ := h.underflow_le
  obtain ⟨hU0, hU⟩ := roundoff_mul_le hpos.le
  have hlimit : 1 < limit := lt_of_abs_lt (real_one ▸ abs_real_lt isFinite_one)
  have hg0 : 0 ≤ g := by linarith
  obtain ⟨f, hf, hreal⟩ := exists_float hg (by rw [abs_of_nonneg hg0]; linarith)
  have hlo := le_ofSum_lo (add_spec isFinite_one hnegfin).1 (isNumber_of_isFinite hf) (by
    rw [← coe_real hf, ← coe_real isFinite_one, ← coe_real hnegfin, ← EReal.coe_add,
      EReal.coe_le_coe_iff, hreal, real_one, hneg, ← sub_eq_add_neg]
    exact hle)
  change value f ≤ value u.gapBelow at hlo
  rw [← coe_real hf, ← coe_real hfin, EReal.coe_le_coe_iff, hreal] at hlo
  linarith

/-- **The linear term, rounded down.** -/
theorem le_descentBelow (h : u.Contracting) (he : 0 ≤ e) (hfin : e.isFinite = true) :
    u.slope * real e * (1 - 13 * unitRoundoff) - 5 * underflowError ≤ real (u.descentBelow e) := by
  obtain ⟨hgfin, -, hgle⟩ := h.gapBelow_spec
  obtain ⟨-, hpos, hone⟩ := h.slope_spec
  have he0 := real_nonneg he hfin
  have hterm := mul_nonneg hpos.le he0
  have hslope : real u.gapBelow * real e ≤ u.slope * real e := mul_le_mul_of_nonneg_right hgle he0
  have hlo := le_ofProduct_lo_relative hgfin hfin (mul_nonneg h.gapBelow_pos.le he0) (by
    have hle : u.slope * real e ≤ 1 * real e := mul_le_mul_of_nonneg_right hone he0
    linarith [lt_of_abs_lt (abs_real_lt hfin)])
  change _ ≤ value (u.descentBelow e) at hlo
  rw [← coe_real (h.descentBelow_spec he hfin).1, EReal.coe_le_coe_iff] at hlo
  refine le_trans ?_ hlo
  have hgap := mul_le_mul_of_nonneg_right h.le_gapBelow he0
  have hU : unitRoundoff * (real u.gapBelow * real e) ≤ unitRoundoff * (u.slope * real e) :=
    mul_le_mul_of_nonneg_left hslope unitRoundoff_pos.le
  linarith

/-- **The quadratic term, rounded up.** -/
theorem squareAbove_le (h : u.Contracting) (hZ : u.z2.isFinite = true) (he : 0 ≤ e)
    (hfin : e.isFinite = true) (hp : (u.z2 == 0) = true ∨ (powerAbove e 2).isFinite = true)
    (hlt : squareBound u (real e) < limit) :
    value (u.squareAbove e) ≤ ((squareBound u (real e) : ℝ) : EReal) := by
  have hZ0 := real_nonneg h.z2_nonneg hZ
  have he0 := real_nonneg he hfin
  have hη := underflowError_pos
  have hU := unitRoundoff_pos
  rcases hp with hzero | hp
  · have hdef : u.squareAbove e = 0 := by
      rw [squareAbove, ofProduct, if_pos (by rw [hzero, Bool.true_or])]
      rfl
    rw [hdef, value_zero]
    have hbound : 0 ≤ squareBound u (real e) := by
      unfold squareBound
      positivity
    exact_mod_cast hbound
  have hpower0 : 0 ≤ real (powerAbove e 2) := by
    have hle := (powerAbove_nonneg he).2
    rwa [← coe_real hp, EReal.coe_nonneg] at hle
  have hpower := mul_le_mul_of_nonneg_left (real_powerAbove_le he hfin hp) hZ0
  have hbound : real u.z2 * real (powerAbove e 2) * (1 + 4 * unitRoundoff) + 5 * underflowError
      ≤ squareBound u (real e) := by
    have hfactor := mul_le_mul_of_nonneg_right hpower (by linarith : 0 ≤ 1 + 4 * unitRoundoff)
    -- products of errors are below a roundoff of one of them
    have hsquare0 : 0 ≤ unitRoundoff * (real u.z2 * real e ^ 2) := by positivity
    have hlinear0 : 0 ≤ underflowError * (real u.z2 * real e) := by positivity
    have hconst0 : 0 ≤ underflowError * real u.z2 := by positivity
    have hsquare := mul_le_mul_of_nonneg_left unitRoundoff_le hsquare0
    have hlinear := mul_le_mul_of_nonneg_left unitRoundoff_le hlinear0
    have hconst := mul_le_mul_of_nonneg_left unitRoundoff_le hconst0
    unfold squareBound
    linarith
  exact (ofProduct_hi_le_relative hZ hp (mul_nonneg hZ0 hpower0) (hbound.trans_lt hlt)).trans
    (EReal.coe_le_coe_iff.mpr hbound)

/-- **With room for the errors** the polynomial is found negative. -/
theorem polynomialAbove_neg_of_le (h : u.Contracting) (hy : u.y0.isFinite = true)
    (hZ : u.z2.isFinite = true) (he : 0 ≤ e) (hfin : e.isFinite = true)
    (hp : (u.z2 == 0) = true ∨ (powerAbove e 2).isFinite = true)
    (hroom : squareBound u (real e)
        + (real u.y0 + 2 * (real u.y0 * unitRoundoff + underflowError))
      ≤ u.slope * real e * (1 - 13 * unitRoundoff) - 5 * underflowError) :
    u.polynomialAbove e < 0 := by
  obtain ⟨-, hpos, hone⟩ := h.slope_spec
  have he0 := real_nonneg he hfin
  have hy0 := real_nonneg h.y0_nonneg hy
  have hη := underflowError_pos
  have hU := unitRoundoff_pos
  have hsquare0 : 0 ≤ squareBound u (real e) := by
    have hZ0 := real_nonneg h.z2_nonneg hZ
    unfold squareBound
    positivity
  have hyU : 0 ≤ real u.y0 * unitRoundoff := by positivity
  -- all terms stay below the radius, which is finite
  have hterm : u.slope * real e * (1 - 13 * unitRoundoff) ≤ real e := by
    have hterm0 : 0 ≤ u.slope * real e * unitRoundoff := by positivity
    have hle : u.slope * real e ≤ 1 * real e := mul_le_mul_of_nonneg_right hone he0
    linarith
  have hlt := lt_of_abs_lt (abs_real_lt hfin)
  have hsquare := h.squareAbove_le hZ he hfin hp (by linarith)
  have hnext := nextUp_le_relative hy hy0 (by linarith)
  rw [h.polynomialAbove_neg_iff he hfin]
  calc value (u.squareAbove e) + value (nextUp u.y0)
      ≤ ((squareBound u (real e) : ℝ) : EReal)
        + ((real u.y0 + 2 * (real u.y0 * unitRoundoff + underflowError) : ℝ) : EReal) :=
        add_le_add hsquare hnext
    _ ≤ ((real (u.descentBelow e) : ℝ) : EReal) := by
        rw [← EReal.coe_add, EReal.coe_le_coe_iff]
        exact hroom.trans (h.le_descentBelow he hfin)

end Contracting

end Bounds

end CertifiedZeros
