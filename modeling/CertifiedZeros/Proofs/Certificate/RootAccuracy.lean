import CertifiedZeros.Proofs.Certificate.Roots

/-! # How accurate the roots are

The computed roots are compared with the exact polynomial of the bounds. Near a double root the roots
themselves are not accurate, but the residual of the sum that they are computed from is small, and that
is enough for the radius between them:

* **`Bounds.slope`**, **`Bounds.vertex`** — the slope of the linear part and the lowest point, exactly.
* **`discriminant_error`**, **`root_error`**, **`halfSum_error`** — the errors of the computation, step
  by step, in roundoffs of the slope.
* **`halfSum_residual`** — the polynomial of which half the sum should be a root.
* **`midRadius_error`** — the radius between finite roots lies at the vertex, up to a few roundoffs. -/

namespace CertifiedZeros.Bounds

open Binary64 CertifiedZeros.Interval

/-- **The slope of the linear part**, exactly. -/
noncomputable def slope (u : Bounds Float) : ℝ := 1 - real u.z0

/-- **Where the polynomial is lowest**, exactly. -/
noncomputable def vertex (u : Bounds Float) : ℝ := u.slope / (2 * real u.z2)

variable {u : Bounds Float}

/-- **Squares** of numbers that are close. -/
theorem abs_sq_sub_sq_le {a b c : ℝ} (hb : 0 ≤ b) (h : |a - b| ≤ c) :
    |a ^ 2 - b ^ 2| ≤ c * (2 * b + c) := by
  have hsum : |a + b| ≤ 2 * b + c := by
    calc |a + b| = |2 * b + (a - b)| := by ring_nf
      _ ≤ |2 * b| + |a - b| := abs_add_le _ _
      _ ≤ 2 * b + c := by rw [abs_of_nonneg (by linarith : (0 : ℝ) ≤ 2 * b)]; linarith
  calc |a ^ 2 - b ^ 2| = |a - b| * |a + b| := by rw [← abs_mul]; ring_nf
    _ ≤ c * (2 * b + c) := mul_le_mul h hsum (abs_nonneg _) ((abs_nonneg _).trans h)

namespace Contracting

theorem slope_spec (h : u.Contracting) : unitRoundoff ≤ u.slope ∧ 0 < u.slope ∧ u.slope ≤ 1 := by
  have hle : unitRoundoff ≤ u.slope := h.zpow_le_one_sub
  exact ⟨hle, unitRoundoff_pos.trans_le hle, by rw [slope]; linarith [h.z0_spec.2.1]⟩

/-- **Underflow is negligible** against a roundoff of the slope. -/
theorem underflow_le (h : u.Contracting) : underflowError ≤ unitRoundoff * u.slope ^ 2 ∧
    underflowError ≤ unitRoundoff * u.slope := by
  obtain ⟨hle, hpos, hone⟩ := h.slope_spec
  have hsquare : underflowError ≤ unitRoundoff * u.slope ^ 2 := by
    have hu := unitRoundoff_pos
    calc underflowError ≤ unitRoundoff ^ 6 := underflowError_le_pow
      _ ≤ unitRoundoff ^ 3 := pow_le_pow_of_le_one hu.le (hle.trans hone) (by norm_num)
      _ = unitRoundoff * unitRoundoff ^ 2 := pow_succ' _ _
      _ ≤ unitRoundoff * u.slope ^ 2 := by gcongr
  refine ⟨hsquare, hsquare.trans ?_⟩
  exact mul_le_mul_of_nonneg_left (pow_le_of_le_one hpos.le hone two_ne_zero) unitRoundoff_pos.le

/-- The slope is rounded once. -/
theorem gap_error (h : u.Contracting) : |real u.gap - u.slope| ≤ 2 * (unitRoundoff * u.slope) := by
  obtain ⟨-, hpos, -⟩ := h.slope_spec
  have hround := abs_rounded_sub_le (r := u.slope) (t := u.slope) (M := u.slope)
    (by rw [sub_self, abs_zero]) (abs_of_pos hpos).le
  rw [show real u.gap = rounded u.slope from h.gap_spec.2.1]
  linarith [h.underflow_le.2]

end Contracting

namespace Solvable

/-- **The discriminant** is computed with a small error, relative to the square of the slope. -/
theorem discriminant_error (h : u.Solvable) (hD : 4 * real u.z2 * real u.y0 ≤ u.slope ^ 2) :
    |real u.discriminant - (u.slope ^ 2 - 4 * real u.z2 * real u.y0)|
      ≤ 13 * (unitRoundoff * u.slope ^ 2) := by
  obtain ⟨-, hpos, -⟩ := h.slope_spec
  obtain ⟨hη, -⟩ := h.underflow_le
  obtain ⟨hU0, hU⟩ := roundoff_mul_le (sq_nonneg u.slope)
  have hproduct0 : 0 ≤ 4 * real u.z2 * real u.y0 :=
    mul_nonneg (mul_nonneg (by norm_num) h.z2_spec.2) h.y0_spec.2
  have hgap : |real u.gap * real u.gap - u.slope ^ 2| ≤ 5 * (unitRoundoff * u.slope ^ 2) := by
    have hsq := abs_sq_sub_sq_le hpos.le h.gap_error
    have hUU := mul_le_mul_of_nonneg_left unitRoundoff_le hU0
    rw [← sq]
    refine hsq.trans ?_
    linarith
  rw [h.discriminant_spec.2.1]
  generalize 4 * real u.z2 * real u.y0 = P at *
  generalize real u.gap * real u.gap = G at *
  -- the two terms
  have hsquare := abs_rounded_sub_le (M := 2 * u.slope ^ 2) hgap
    (by rw [abs_le] at hgap ⊢; constructor <;> linarith)
  have hproduct := abs_rounded_sub_le (r := P) (t := P) (M := u.slope ^ 2)
    (by rw [sub_self, abs_zero]) (by rw [abs_of_nonneg hproduct0]; exact hD)
  rw [abs_le] at hsquare hproduct
  -- and their difference
  have hdifference : |rounded G - rounded P - (u.slope ^ 2 - P)|
      ≤ 10 * (unitRoundoff * u.slope ^ 2) := by
    rw [abs_le]
    constructor <;> linarith
  have hbound : |rounded G - rounded P| ≤ 2 * u.slope ^ 2 := by
    rw [abs_le] at hdifference ⊢
    constructor <;> linarith
  refine (abs_rounded_sub_le hdifference hbound).trans ?_
  linarith

/-- **The root of the discriminant**: its square is close to the exact discriminant. -/
theorem root_error (h : u.Solvable) (hD : 4 * real u.z2 * real u.y0 ≤ u.slope ^ 2) :
    |real u.discriminant.sqrt ^ 2 - (u.slope ^ 2 - 4 * real u.z2 * real u.y0)|
        ≤ 28 * (unitRoundoff * u.slope ^ 2) ∧
      real u.discriminant.sqrt ≤ 1.01 * u.slope := by
  obtain ⟨-, hpos, -⟩ := h.slope_spec
  obtain ⟨-, hη⟩ := h.underflow_le
  obtain ⟨hU0, hU⟩ := roundoff_mul_le (sq_nonneg u.slope)
  have hproduct0 : 0 ≤ 4 * real u.z2 * real u.y0 :=
    mul_nonneg (mul_nonneg (by norm_num) h.z2_spec.2) h.y0_spec.2
  obtain ⟨-, -, hd0, -⟩ := h.discriminant_spec
  have hd := abs_le.mp (h.discriminant_error hD)
  -- the exact root of the computed discriminant
  have hroot0 := Real.sqrt_nonneg (real u.discriminant)
  have hsq := Real.sq_sqrt hd0
  have hroot : √(real u.discriminant) ≤ 2 * u.slope := by
    rw [Real.sqrt_le_left (by linarith)]
    linarith
  have hrounded := abs_rounded_sub_le (r := √(real u.discriminant))
    (t := √(real u.discriminant)) (M := 2 * u.slope) (by rw [sub_self, abs_zero])
    (by rw [abs_of_nonneg hroot0]; exact hroot)
  have hnear : |real u.discriminant.sqrt - √(real u.discriminant)| ≤ 3 * (unitRoundoff * u.slope) := by
    rw [h.sqrt_discriminant_spec.2.1]
    linarith
  have hsquare := abs_sq_sub_sq_le hroot0 hnear
  rw [hsq] at hsquare
  have hbound : 3 * (unitRoundoff * u.slope) * (2 * √(real u.discriminant)
      + 3 * (unitRoundoff * u.slope)) ≤ 15 * (unitRoundoff * u.slope ^ 2) := by
    have hUB := roundoff_mul_le hpos.le
    calc 3 * (unitRoundoff * u.slope) * (2 * √(real u.discriminant) + 3 * (unitRoundoff * u.slope))
        ≤ 3 * (unitRoundoff * u.slope) * (5 * u.slope) :=
          mul_le_mul_of_nonneg_left (by linarith) (by linarith)
      _ = 15 * (unitRoundoff * u.slope ^ 2) := by ring
  have herror : |real u.discriminant.sqrt ^ 2 - (u.slope ^ 2 - 4 * real u.z2 * real u.y0)|
      ≤ 28 * (unitRoundoff * u.slope ^ 2) := by
    rw [abs_le] at hsquare ⊢
    constructor <;> linarith
  refine ⟨herror, ?_⟩
  refine abs_le_of_sq_le_sq ?_ (by linarith) |>.trans' (le_abs_self _)
  have hle := (abs_le.mp herror).2
  rw [mul_pow]
  linarith

/-- **Twice half the sum** is the sum of the slope and the computed root, with a small error. -/
theorem halfSum_error (h : u.Solvable) (hD : 4 * real u.z2 * real u.y0 ≤ u.slope ^ 2) :
    |2 * real u.halfSum - (u.slope + real u.discriminant.sqrt)| ≤ 6 * (unitRoundoff * u.slope) := by
  obtain ⟨-, hpos, -⟩ := h.slope_spec
  obtain ⟨-, hη⟩ := h.underflow_le
  obtain ⟨hU0, hU⟩ := roundoff_mul_le hpos.le
  obtain ⟨-, hs⟩ := h.root_error hD
  obtain ⟨-, hsreal, hs0, -⟩ := h.sqrt_discriminant_spec
  have hgap := abs_le.mp h.gap_error
  have hlow := h.gap_spec.2.2.1
  -- halving is exact, because the sum is not tiny
  have hhalf : 2 * real u.halfSum = rounded (real u.gap + real u.discriminant.sqrt) := by
    have hrep : Representable (1 / 2 * rounded (real u.gap + real u.discriminant.sqrt)) := by
      refine (representable_rounded _).half ?_
      have hle := le_rounded (representable_zpow (show (-1074 : ℤ) ≤ -53 by norm_num))
        (show (2 : ℝ) ^ (-53 : ℤ) ≤ real u.gap + real u.discriminant.sqrt by linarith)
      exact (zpow_two_le (by norm_num)).trans (hle.trans (le_abs_self _))
    rw [h.halfSum_spec.2.1, ← hsreal, rounded_eq hrep]
    ring
  rw [hhalf]
  have hsum : |real u.gap + real u.discriminant.sqrt - (u.slope + real u.discriminant.sqrt)|
      ≤ 2 * (unitRoundoff * u.slope) := by
    rw [abs_le]
    constructor <;> linarith
  have hbound : |real u.gap + real u.discriminant.sqrt| ≤ 3 * u.slope := by
    rw [abs_le]
    constructor <;> linarith
  refine (abs_rounded_sub_le hsum hbound).trans ?_
  linarith

/-- **Half the sum is nearly a root** of the polynomial that it should be the larger root of. -/
theorem halfSum_residual (h : u.Solvable) (hD : 4 * real u.z2 * real u.y0 ≤ u.slope ^ 2) :
    |real u.halfSum ^ 2 - u.slope * real u.halfSum + real u.z2 * real u.y0|
        ≤ 11 * (unitRoundoff * u.slope ^ 2) ∧
      0.49 * u.slope ≤ real u.halfSum ∧ real u.halfSum ≤ 1.01 * u.slope := by
  obtain ⟨-, hpos, -⟩ := h.slope_spec
  obtain ⟨hU0, hU⟩ := roundoff_mul_le hpos.le
  obtain ⟨hroot, hs⟩ := h.root_error hD
  have hs0 := h.sqrt_discriminant_spec.2.2.1
  have hsum := h.halfSum_error hD
  -- what is left of twice half the sum after the slope should be the root of the discriminant
  have hrest : |(2 * real u.halfSum - u.slope) - real u.discriminant.sqrt|
      ≤ 6 * (unitRoundoff * u.slope) := by
    rwa [sub_sub]
  have hsquare := abs_sq_sub_sq_le hs0 hrest
  have hbound : 6 * (unitRoundoff * u.slope) * (2 * real u.discriminant.sqrt
      + 6 * (unitRoundoff * u.slope)) ≤ 13 * (unitRoundoff * u.slope ^ 2) := by
    calc 6 * (unitRoundoff * u.slope)
          * (2 * real u.discriminant.sqrt + 6 * (unitRoundoff * u.slope))
        ≤ 6 * (unitRoundoff * u.slope) * (13 / 6 * u.slope) :=
          mul_le_mul_of_nonneg_left (by linarith) (by linarith)
      _ = 13 * (unitRoundoff * u.slope ^ 2) := by ring
  rw [abs_le] at hsquare hroot hsum
  refine ⟨?_, by linarith, by linarith⟩
  have hcomplete : real u.halfSum ^ 2 - u.slope * real u.halfSum + real u.z2 * real u.y0
      = ((2 * real u.halfSum - u.slope) ^ 2 - (u.slope ^ 2 - 4 * real u.z2 * real u.y0)) / 4 := by
    ring
  rw [hcomplete, abs_le]
  constructor <;> linarith

/-- **The exact quotients** that the roots are rounded from, and their mean. -/
theorem quotients_spec (h : u.Solvable) (hD : 4 * real u.z2 * real u.y0 ≤ u.slope ^ 2)
    (hZ : 0 < real u.z2) : 0 ≤ real u.y0 / real u.halfSum ∧
      real u.y0 / real u.halfSum ≤ 1.03 * u.vertex ∧
      real u.halfSum / real u.z2 ≤ 2.02 * u.vertex ∧
      |(real u.y0 / real u.halfSum + real u.halfSum / real u.z2) / 2 - u.vertex|
        ≤ 23 * (unitRoundoff * u.vertex) := by
  obtain ⟨-, hpos, -⟩ := h.slope_spec
  obtain ⟨hresidual, hlow, hhigh⟩ := h.halfSum_residual hD
  have hq := h.halfSum_pos
  have hslope : u.slope = 2 * real u.z2 * u.vertex := by
    rw [vertex]
    field_simp
  have hV : 0 < u.vertex := div_pos hpos (by linarith)
  rw [hslope] at hresidual hlow hhigh hD
  refine ⟨div_nonneg h.y0_spec.2 hq.le, ?_, ?_, ?_⟩
  · rw [div_le_iff₀ hq]
    have hy : real u.y0 ≤ real u.z2 * u.vertex ^ 2 := by nlinarith
    nlinarith
  · rw [div_le_iff₀ hZ]
    linarith
  · have hsplit : (real u.y0 / real u.halfSum + real u.halfSum / real u.z2) / 2 - u.vertex
        = (real u.halfSum ^ 2 - 2 * real u.z2 * u.vertex * real u.halfSum + real u.z2 * real u.y0)
          / (2 * real u.z2 * real u.halfSum) := by
      field_simp
      ring
    have hden : 0 < 2 * real u.z2 * real u.halfSum := by positivity
    rw [hsplit, abs_div, abs_of_pos hden, div_le_iff₀ hden]
    refine hresidual.trans ?_
    have hU := unitRoundoff_pos
    calc 11 * (unitRoundoff * (2 * real u.z2 * u.vertex) ^ 2)
        = 44 * (unitRoundoff * u.vertex) * real u.z2 * (real u.z2 * u.vertex) := by ring
      _ ≤ 44 * (unitRoundoff * u.vertex) * real u.z2 * (50 / 49 * real u.halfSum) :=
          mul_le_mul_of_nonneg_left (by linarith) (by positivity)
      _ ≤ 23 * (unitRoundoff * u.vertex) * (2 * real u.z2 * real u.halfSum) := by
          have h0 : 0 ≤ unitRoundoff * u.vertex * real u.z2 * real u.halfSum := by positivity
          linarith

/-- **The radius between finite roots** is the vertex, up to a few roundoffs. -/
theorem midRadius_error (h : u.Solvable) (hD : 4 * real u.z2 * real u.y0 ≤ u.slope ^ 2)
    (hlt : u.smallRoot < u.largeRoot) (hfin : u.largeRoot.isFinite = true) (hZ : 0 < real u.z2)
    (hη : underflowError ≤ unitRoundoff * u.vertex) :
    |real (midRadius u.smallRoot u.largeRoot) - u.vertex| ≤ 64 * (unitRoundoff * u.vertex) := by
  obtain ⟨hq0, hq₁, hq₂, hmean⟩ := h.quotients_spec hD hZ
  have hV : 0 < u.vertex := div_pos h.slope_spec.2.1 (by linarith)
  obtain ⟨hU0, hU⟩ := roundoff_mul_le hV.le
  obtain ⟨-, hmid, -⟩ := h.midRadius_finite hlt hfin
  have hsmall : real u.smallRoot = rounded (real u.y0 / real u.halfSum) :=
    real_eq_rounded h.smallRoot_spec.2.1 (h.smallRoot_finite hlt).1
  have hlarge : real u.largeRoot = rounded (real u.halfSum / real u.z2) :=
    real_eq_rounded (h.largeRoot_of_pos hZ).2 hfin
  rw [hmid]
  have hpos₂ : 0 ≤ real u.halfSum / real u.z2 := div_nonneg h.halfSum_pos.le hZ.le
  -- each rounding adds a roundoff of the vertex
  have herr₁ := abs_rounded_sub_le (r := real u.y0 / real u.halfSum)
    (t := real u.y0 / real u.halfSum) (M := 1.03 * u.vertex) (by rw [sub_self, abs_zero])
    (by rw [abs_of_nonneg hq0]; exact hq₁)
  have herr₂ := abs_rounded_sub_le (r := real u.halfSum / real u.z2)
    (t := real u.halfSum / real u.z2) (M := 2.02 * u.vertex) (by rw [sub_self, abs_zero])
    (by rw [abs_of_nonneg hpos₂]; exact hq₂)
  rw [← hsmall] at herr₁
  rw [← hlarge] at herr₂
  generalize real u.y0 / real u.halfSum = x₁ at *
  generalize real u.halfSum / real u.z2 = x₂ at *
  rw [abs_le] at herr₁ herr₂ hmean
  have hdifference : |real u.largeRoot - real u.smallRoot - (x₂ - x₁)|
      ≤ 6 * (unitRoundoff * u.vertex) := by
    rw [abs_le]
    constructor <;> linarith
  have hbound : |real u.largeRoot - real u.smallRoot| ≤ 3 * u.vertex := by
    rw [abs_le] at hdifference ⊢
    constructor <;> linarith
  have hrounded := abs_le.mp (abs_rounded_sub_le hdifference hbound)
  have hhalf : |1 / 2 * rounded (real u.largeRoot - real u.smallRoot) - (x₂ - x₁) / 2|
      ≤ 5 * (unitRoundoff * u.vertex) := by
    rw [abs_le]
    constructor <;> linarith
  have hbound' : |1 / 2 * rounded (real u.largeRoot - real u.smallRoot)| ≤ 2 * u.vertex := by
    rw [abs_le] at hhalf ⊢
    constructor <;> linarith
  have hrounded' := abs_le.mp (abs_rounded_sub_le hhalf hbound')
  generalize rounded (1 / 2 * rounded (real u.largeRoot - real u.smallRoot)) = t at *
  have hsum : |real u.smallRoot + t - u.vertex| ≤ 36 * (unitRoundoff * u.vertex) := by
    rw [abs_le]
    constructor <;> linarith
  have hbound'' : |real u.smallRoot + t| ≤ 2 * u.vertex := by
    rw [abs_le] at hsum ⊢
    constructor <;> linarith
  refine (abs_rounded_sub_le hsum hbound'').trans ?_
  linarith

end Solvable

end CertifiedZeros.Bounds
