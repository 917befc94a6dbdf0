import CertifiedZeros.Proofs.Binary64.Reflection
import CertifiedZeros.Proofs.Binary64.RelativeError
import CertifiedZeros.Proofs.Binary64.SquareRoot
import CertifiedZeros.Proofs.Certificate.Soundness
import CertifiedZeros.Proofs.Interval.Weights

/-! # The roots of the radii polynomial in floats

The roots are computed from float bounds, with one rounding at each step. For bounds of norms nothing
is negative on the way, and only a root can be infinite:

* **`Bounds.Contracting`**, **`Bounds.Solvable`** — bounds of norms that leave a contraction, and
  real roots on top of that; each step has its specification, as a rounded real number.
* **`Bounds.Better`** — smaller bounds of norms. They are solvable as well (**`Solvable.better`**),
  and their roots lie on the outer sides (**`smallRoot_better`**, **`largeRoot_better`**). -/

namespace CertifiedZeros

open Binary64 CertifiedZeros.Interval

namespace Bounds

/-! ## Bounds of norms -/

/-- **Bounds of norms that leave a contraction.** -/
structure Contracting (u : Bounds Float) : Prop where
  y0_nonneg : 0 ≤ u.y0
  z0_nonneg : 0 ≤ u.z0
  z2_nonneg : 0 ≤ u.z2
  z0_lt_one : u.z0 < 1

/-- **Bounds of norms that leave a contraction and real roots.** -/
structure Solvable (u : Bounds Float) : Prop extends u.Contracting where
  real_roots : 0 ≤ u.discriminant

/-- **Better bounds**: they are smaller, and still bounds of norms. -/
structure Better (u' u : Bounds Float) : Prop where
  y0_nonneg : 0 ≤ u'.y0
  z0_nonneg : 0 ≤ u'.z0
  z2_nonneg : 0 ≤ u'.z2
  y0_le : u'.y0 ≤ u.y0
  z0_le : u'.z0 ≤ u.z0
  z2_le : u'.z2 ≤ u.z2

instance (u' u : Bounds Float) : Decidable (u'.Better u) :=
  decidable_of_iff (0 ≤ u'.y0 ∧ 0 ≤ u'.z0 ∧ 0 ≤ u'.z2 ∧ u'.y0 ≤ u.y0 ∧ u'.z0 ≤ u.z0 ∧ u'.z2 ≤ u.z2)
    ⟨fun ⟨hy, hz, hZ, hyle, hzle, hZle⟩ => ⟨hy, hz, hZ, hyle, hzle, hZle⟩,
      fun ⟨hy, hz, hZ, hyle, hzle, hZle⟩ => ⟨hy, hz, hZ, hyle, hzle, hZle⟩⟩

variable {u u' : Bounds Float}

/-! ## The steps as rounded real numbers -/

namespace Contracting

theorem z0_spec (h : u.Contracting) : u.z0.isFinite = true ∧ 0 ≤ real u.z0 ∧ real u.z0 < 1 := by
  have hfin := finite_of_le_of_le h.z0_nonneg (float_le_of_lt h.z0_lt_one) isFinite_zero isFinite_one
  have hlt := (lt_iff.mp h.z0_lt_one).2.2
  rw [← coe_real hfin, ← coe_real isFinite_one, real_one, EReal.coe_lt_coe_iff] at hlt
  exact ⟨hfin, real_nonneg h.z0_nonneg hfin, hlt⟩

/-- **What a contraction leaves is not tiny**: below one the floats are apart. -/
theorem zpow_le_one_sub (h : u.Contracting) : (2 : ℝ) ^ (-53 : ℤ) ≤ 1 - real u.z0 := by
  obtain ⟨hfin, h0, h1⟩ := h.z0_spec
  rcases lt_or_ge (real u.z0) ((2 : ℝ) ^ (-1 : ℤ)) with hsmall | hlarge
  · have hhalf : (2 : ℝ) ^ (-1 : ℤ) = 1 / 2 := by norm_num
    have hpow : (2 : ℝ) ^ (-53 : ℤ) ≤ (2 : ℝ) ^ (-1 : ℤ) := zpow_two_le (by norm_num)
    rw [hhalf] at hsmall hpow
    exact hpow.trans (by linarith)
  · -- from one half on, all floats are multiples of a last place
    have hgrid : OnGrid (-53) (real u.z0) := by
      refine (representable_real hfin).onGrid (le_unitExponent_of_le ?_)
      rw [abs_of_nonneg h0]
      exact hlarge
    have hone : OnGrid (-53) 1 := ⟨2 ^ 53, by norm_num⟩
    have hstep := (hone.sub hgrid).zpow_le_abs (by linarith)
    rwa [abs_of_pos (by linarith)] at hstep

theorem gap_spec (h : u.Contracting) : u.gap.isFinite = true ∧
    real u.gap = rounded (1 - real u.z0) ∧ (2 : ℝ) ^ (-53 : ℤ) ≤ real u.gap ∧ real u.gap ≤ 1 := by
  obtain ⟨hfin, h0, h1⟩ := h.z0_spec
  have hsub := sub_spec isFinite_one hfin
  rw [real_one] at hsub
  obtain ⟨hgap, hreal⟩ := finite_of_abs_le hsub isFinite_one
    (by rw [real_one, abs_of_nonneg (by linarith)]; linarith)
  change u.gap.isFinite = true at hgap
  change real u.gap = _ at hreal
  refine ⟨hgap, hreal, ?_, ?_⟩ <;> rw [hreal]
  · exact le_rounded (representable_zpow (by norm_num)) h.zpow_le_one_sub
  · exact rounded_le representable_one (by linarith)

theorem gap_pos (h : u.Contracting) : 0 < real u.gap :=
  (zpow_two_pos _).trans_le h.gap_spec.2.2.1

/-- The square of the slope is rounded to at most one. -/
theorem gap_mul_gap (h : u.Contracting) : (u.gap * u.gap).isFinite = true ∧
    real (u.gap * u.gap) = rounded (real u.gap * real u.gap) ∧ real (u.gap * u.gap) ≤ 1 := by
  obtain ⟨hfin, -, -, hle⟩ := h.gap_spec
  have hpos := h.gap_pos
  have hsq : real u.gap * real u.gap ≤ 1 := by nlinarith
  obtain ⟨hmul, hreal⟩ := finite_of_abs_le (mul_spec hfin hfin) isFinite_one
    (by rw [real_one, abs_of_nonneg (by positivity)]; exact hsq)
  exact ⟨hmul, hreal, hreal ▸ rounded_le representable_one hsq⟩

end Contracting

namespace Solvable

/-- **Real roots need a finite product** of the other two bounds. -/
theorem product_finite (h : u.Solvable) : (4 * u.z2 * u.y0).isFinite = true := by
  obtain ⟨hfin, -, -⟩ := h.gap_mul_gap
  obtain ⟨hnum, hnonneg⟩ := nonneg_spec h.real_roots
  by_contra hinf
  have hproduct : IsNumber (4 * u.z2 * u.y0) := by
    by_contra hnan
    exact not_isNumber_sub (.inr hnan) hnum
  have h4 : 0 ≤ value (4 : Float) := by
    rw [← coe_real four_spec.1, four_spec.2]
    norm_num
  -- the product is not negative, so it is infinite upwards, and the discriminant downwards
  have hsign : 0 ≤ value (4 * u.z2 * u.y0) :=
    value_mul_nonneg (value_mul_nonneg h4 (nonneg_spec h.z2_nonneg).2) (nonneg_spec h.y0_nonneg).2
  have htop : value (4 * u.z2 * u.y0) = ⊤ :=
    hproduct.value_eq_top hsign ((Bool.not_eq_true _).mp hinf)
  have hdiff := sub_infinite (isNumber_of_isFinite hfin) hproduct
    (.inr ((Bool.not_eq_true _).mp hinf))
    (fun h' => by rw [← coe_real hfin] at h'; exact EReal.coe_ne_top _ h'.1)
    (fun h' => by rw [← coe_real hfin] at h'; exact EReal.coe_ne_bot _ h'.1)
  change 0 ≤ value (u.gap * u.gap - 4 * u.z2 * u.y0) at hnonneg
  rw [hdiff.2, htop, EReal.sub_top] at hnonneg
  exact absurd hnonneg (not_le.mpr EReal.bot_lt_zero)

theorem y0_spec (h : u.Solvable) : u.y0.isFinite = true ∧ 0 ≤ real u.y0 :=
  ⟨(isFinite_of_mul h.product_finite).2,
    real_nonneg h.y0_nonneg (isFinite_of_mul h.product_finite).2⟩

theorem z2_spec (h : u.Solvable) : u.z2.isFinite = true ∧ 0 ≤ real u.z2 := by
  have hfin := (isFinite_of_mul (isFinite_of_mul h.product_finite).1).2
  exact ⟨hfin, real_nonneg h.z2_nonneg hfin⟩

theorem z2_beq_zero_iff (h : u.Solvable) : (u.z2 == 0) = true ↔ real u.z2 = 0 := by
  rw [beq_zero_iff (isNumber_of_isFinite h.z2_spec.1), ← coe_real h.z2_spec.1, EReal.coe_eq_zero]

/-- The product of the other two bounds is rounded once. -/
theorem product_spec (h : u.Solvable) :
    real (4 * u.z2 * u.y0) = rounded (4 * real u.z2 * real u.y0) := by
  have hfin := h.product_finite
  have hfactor := (isFinite_of_mul hfin).1
  have hz2 := h.z2_spec
  have hscaled : real (4 * u.z2) = 4 * real u.z2 := by
    have hrep : Representable (4 * real u.z2) := by
      have h4 : 4 * real u.z2 = 2 * (2 * real u.z2) := by ring
      rw [h4]
      exact (representable_real hz2.1).two_mul.two_mul
    rw [real_eq_rounded (mul_spec four_spec.1 hz2.1).2 hfactor, four_spec.2, rounded_eq hrep]
  rw [real_eq_rounded (mul_spec hfactor h.y0_spec.1).2 hfin, hscaled]

/-- **The discriminant** is a rounded difference between zero and one. -/
theorem discriminant_spec (h : u.Solvable) : u.discriminant.isFinite = true ∧
    real u.discriminant
      = rounded (rounded (real u.gap * real u.gap) - rounded (4 * real u.z2 * real u.y0)) ∧
    0 ≤ real u.discriminant ∧ real u.discriminant ≤ 1 := by
  obtain ⟨hfin, hreal, hle⟩ := h.gap_mul_gap
  have hproduct : 0 ≤ real (4 * u.z2 * u.y0) := by
    rw [h.product_spec]
    exact le_rounded representable_zero
      (mul_nonneg (mul_nonneg (by norm_num) h.z2_spec.2) h.y0_spec.2)
  have hspec := sub_spec hfin h.product_finite
  change IsNumber u.discriminant ∧ value u.discriminant = _ at hspec
  have hrounded := rounded_le representable_one
    (show real (u.gap * u.gap) - real (4 * u.z2 * u.y0) ≤ 1 by linarith)
  -- above one there is no discriminant, and below zero there are no real roots
  have hdfin : u.discriminant.isFinite = true := by
    refine finite_of_le_of_le h.real_roots (z := 1) (le_iff.mpr ⟨hspec.1, one_isNumber, ?_⟩)
      isFinite_zero isFinite_one
    rw [hspec.2, value_one]
    have hmono := clamp_mono hrounded
    rwa [clamp_of_lt (x := 1) (real_one ▸ abs_real_lt isFinite_one)] at hmono
  have hdreal := real_eq_rounded hspec.2 hdfin
  refine ⟨hdfin, ?_, real_nonneg h.real_roots hdfin, ?_⟩
  · rw [hdreal, hreal, h.product_spec]
  · rw [hdreal]
    exact hrounded

/-- **The root of the discriminant** is rounded, and at most one. -/
theorem sqrt_discriminant_spec (h : u.Solvable) : u.discriminant.sqrt.isFinite = true ∧
    real u.discriminant.sqrt = rounded (√(real u.discriminant)) ∧
    0 ≤ real u.discriminant.sqrt ∧ real u.discriminant.sqrt ≤ 1 := by
  obtain ⟨hfin, -, h0, h1⟩ := h.discriminant_spec
  have hle : √(real u.discriminant) ≤ 1 := Real.sqrt_le_one.mpr h1
  obtain ⟨hsfin, hsreal⟩ := finite_of_abs_le (sqrt_spec hfin h0) isFinite_one
    (by rw [real_one, abs_of_nonneg (Real.sqrt_nonneg _)]; exact hle)
  refine ⟨hsfin, hsreal, ?_, ?_⟩ <;> rw [hsreal]
  · exact le_rounded representable_zero (Real.sqrt_nonneg _)
  · exact rounded_le representable_one hle

/-- **Half the sum** is rounded twice, and lies above zero. -/
theorem halfSum_spec (h : u.Solvable) : u.halfSum.isFinite = true ∧
    real u.halfSum
      = rounded (1 / 2 * rounded (real u.gap + rounded (√(real u.discriminant)))) ∧
    (2 : ℝ) ^ (-54 : ℤ) ≤ real u.halfSum ∧ real u.halfSum ≤ 1 := by
  obtain ⟨hgfin, -, hglow, hghigh⟩ := h.gap_spec
  obtain ⟨hsfin, hsreal, hs0, hs1⟩ := h.sqrt_discriminant_spec
  have hgpos := h.gap_pos
  obtain ⟨hafin, hareal⟩ := finite_of_abs_le (add_spec hgfin hsfin) two_spec.1
    (by rw [two_spec.2, abs_of_nonneg (by linarith)]; linarith)
  have hlow : (2 : ℝ) ^ (-53 : ℤ) ≤ real (u.gap + u.discriminant.sqrt) := by
    rw [hareal]
    exact le_rounded (representable_zpow (by norm_num)) (by linarith)
  have hhigh : real (u.gap + u.discriminant.sqrt) ≤ 2 := by
    rw [hareal]
    exact rounded_le representable_two (by linarith)
  obtain ⟨hqfin, hqreal⟩ := half_finite hafin
  change u.halfSum.isFinite = true at hqfin
  change real u.halfSum = _ at hqreal
  refine ⟨hqfin, by rw [hqreal, hareal, hsreal], ?_, ?_⟩ <;> rw [hqreal]
  · refine le_rounded (representable_zpow (by norm_num)) ?_
    have hhalf : (2 : ℝ) ^ (-54 : ℤ) = 1 / 2 * (2 : ℝ) ^ (-53 : ℤ) := by norm_num
    rw [hhalf]
    exact mul_le_mul_of_nonneg_left hlow (by norm_num)
  · exact rounded_le representable_one (by linarith)

theorem halfSum_pos (h : u.Solvable) : 0 < real u.halfSum :=
  (zpow_two_pos _).trans_le h.halfSum_spec.2.2.1

/-- **The smaller root** is a rounded quotient. -/
theorem smallRoot_spec (h : u.Solvable) : IsNumber u.smallRoot ∧
    value u.smallRoot = clamp (rounded (real u.y0 / real u.halfSum)) ∧ 0 ≤ value u.smallRoot := by
  obtain ⟨hnum, hval⟩ := div_spec h.y0_spec.1 h.halfSum_spec.1 h.halfSum_pos.ne'
  refine ⟨hnum, hval, ?_⟩
  change 0 ≤ value (u.y0 / u.halfSum)
  rw [hval]
  exact clamp_nonneg (le_rounded representable_zero (div_nonneg h.y0_spec.2 h.halfSum_pos.le))

theorem smallRoot_nonneg (h : u.Solvable) : 0 ≤ u.smallRoot :=
  nonneg_of_value h.smallRoot_spec.1 h.smallRoot_spec.2.2

/-- The larger root of a linear polynomial. -/
theorem largeRoot_of_zero (h : u.Solvable) (h0 : real u.z2 = 0) : u.largeRoot = infinity := by
  rw [largeRoot, if_neg]
  rw [pos_iff h.z2_spec.1, h0]
  exact lt_irrefl 0

/-- **The larger root** of a quadratic polynomial is a rounded quotient. -/
theorem largeRoot_of_pos (h : u.Solvable) (hpos : 0 < real u.z2) : IsNumber u.largeRoot ∧
    value u.largeRoot = clamp (rounded (real u.halfSum / real u.z2)) := by
  rw [largeRoot, if_pos ((pos_iff h.z2_spec.1).mpr hpos)]
  exact div_spec h.halfSum_spec.1 h.z2_spec.1 hpos.ne'

theorem largeRoot_isNumber (h : u.Solvable) : IsNumber u.largeRoot := by
  rcases h.z2_spec.2.eq_or_lt with h0 | hpos
  · rw [h.largeRoot_of_zero h0.symm]
    exact infinity_isNumber
  · exact (h.largeRoot_of_pos hpos).1

end Solvable

/-! ## The radius between the roots -/

/-- **Half a difference, rounded twice,** is no more than the difference. -/
theorem rounded_half_sub_le {a b : ℝ} (ha : Representable a) (hb : Representable b) (hle : a ≤ b) :
    rounded (1 / 2 * rounded (b - a)) ≤ b - a := by
  have h0 : 0 ≤ rounded (b - a) := le_rounded representable_zero (by linarith)
  rcases lt_or_ge (b - a) ((2 : ℝ) ^ (-1021 : ℤ)) with hsmall | hlarge
  · -- a small difference is exact, and halving it does not round above it
    have hrep : Representable (b - a) := by
      refine representable_of_onGrid le_rfl (hb.onGrid_least.sub ha.onGrid_least) ?_
      rw [abs_of_nonneg (by linarith)]
      exact hsmall.le
    rw [rounded_eq hrep]
    exact rounded_le hrep (by linarith)
  · -- a large one has an exact half, and was at most doubled by rounding
    have hhalf : Representable (1 / 2 * rounded (b - a)) := by
      refine (representable_rounded _).half ?_
      rw [abs_of_nonneg h0]
      exact le_rounded (representable_zpow (by norm_num)) hlarge
    have hdouble := abs_sub_rounded_le_of_representable (x := b - a) representable_zero
    rw [sub_zero, abs_of_nonneg (by linarith : 0 ≤ b - a)] at hdouble
    rw [rounded_eq hhalf]
    linarith [(abs_le.mp hdouble).1]

namespace Solvable

/-- A root with another one above it is finite. -/
theorem smallRoot_finite (h : u.Solvable) (hlt : u.smallRoot < u.largeRoot) :
    u.smallRoot.isFinite = true ∧ 0 ≤ real u.smallRoot := by
  obtain ⟨hnum, -, h0⟩ := h.smallRoot_spec
  have hfin : u.smallRoot.isFinite = true := by
    rcases hnum.cases with hfin | ⟨-, htop | hbot⟩
    · exact hfin
    · exact absurd (htop ▸ (lt_iff.mp hlt).2.2) not_top_lt
    · rw [hbot] at h0
      exact absurd h0 (not_le.mpr EReal.bot_lt_zero)
  rw [← coe_real hfin, EReal.coe_nonneg] at h0
  exact ⟨hfin, h0⟩

/-- **Between finite roots** the radius is rounded three times, and lies between them. -/
theorem midRadius_finite (h : u.Solvable) (hlt : u.smallRoot < u.largeRoot)
    (hfin : u.largeRoot.isFinite = true) :
    (midRadius u.smallRoot u.largeRoot).isFinite = true ∧
      real (midRadius u.smallRoot u.largeRoot) = rounded (real u.smallRoot
        + rounded (1 / 2 * rounded (real u.largeRoot - real u.smallRoot))) ∧
      real u.smallRoot ≤ real (midRadius u.smallRoot u.largeRoot) := by
  obtain ⟨hsfin, hs0⟩ := h.smallRoot_finite hlt
  have hle := real_le_real (float_le_of_lt hlt) hsfin hfin
  have hdef : midRadius u.smallRoot u.largeRoot
      = u.smallRoot + 0.5 * (u.largeRoot - u.smallRoot) := if_pos hfin
  rw [hdef]
  generalize u.smallRoot = a at *
  generalize u.largeRoot = b at *
  -- the difference stays below the larger root, and so does half of it
  obtain ⟨hdfin, hdreal⟩ := finite_of_abs_le (sub_spec hfin hsfin) hfin
    (by rw [abs_of_nonneg (by linarith)]; linarith)
  have hd0 : 0 ≤ real (b - a) := by
    rw [hdreal]
    exact le_rounded representable_zero (by linarith)
  have hdle : real (b - a) ≤ real b := by
    rw [hdreal]
    exact rounded_le (representable_real hfin) (by linarith)
  obtain ⟨hmfin, hmreal⟩ := half_finite hdfin
  have hm0 : 0 ≤ real (0.5 * (b - a)) := by
    rw [hmreal]
    exact le_rounded representable_zero (by linarith)
  have hmle : real (0.5 * (b - a)) ≤ real b - real a := by
    rw [hmreal, hdreal]
    exact rounded_half_sub_le (representable_real hsfin) (representable_real hfin) hle
  obtain ⟨hefin, hereal⟩ := finite_of_abs_le (add_spec hsfin hmfin) hfin
    (by rw [abs_of_nonneg (by linarith)]; linarith)
  refine ⟨hefin, by rw [hereal, hmreal, hdreal], ?_⟩
  rw [hereal]
  exact le_rounded (representable_real hsfin) (by linarith)

/-- **Below an infinite root** the radius is twice the smaller one, which may overflow. -/
theorem midRadius_infinite (h : u.Solvable) (hlt : u.smallRoot < u.largeRoot)
    (hinf : u.largeRoot.isFinite = false) :
    midRadius u.smallRoot u.largeRoot = 2 * u.smallRoot ∧ IsNumber (2 * u.smallRoot) ∧
      value (2 * u.smallRoot) = clamp (2 * real u.smallRoot) := by
  obtain ⟨hsfin, -⟩ := h.smallRoot_finite hlt
  have hdef : midRadius u.smallRoot u.largeRoot = 2 * u.smallRoot := by
    rw [midRadius, hinf]
    rfl
  have hspec := mul_spec two_spec.1 hsfin
  rw [two_spec.2, rounded_eq (representable_real hsfin).two_mul] at hspec
  exact ⟨hdef, hspec⟩

/-- **The radius is not negative**, and not a NaN. -/
theorem midRadius_nonneg (h : u.Solvable) (hlt : u.smallRoot < u.largeRoot) :
    0 ≤ midRadius u.smallRoot u.largeRoot := by
  obtain ⟨-, hs0⟩ := h.smallRoot_finite hlt
  rcases Bool.eq_false_or_eq_true u.largeRoot.isFinite with hfin | hinf
  · obtain ⟨hefin, -, hle⟩ := h.midRadius_finite hlt hfin
    refine nonneg_of_value (isNumber_of_isFinite hefin) ?_
    rw [← coe_real hefin, EReal.coe_nonneg]
    exact hs0.trans hle
  · obtain ⟨hdef, hnum, hval⟩ := h.midRadius_infinite hlt hinf
    rw [hdef]
    refine nonneg_of_value hnum ?_
    rw [hval]
    exact clamp_nonneg (by linarith)

end Solvable

/-! ## Better bounds -/

/-- **Smaller factors have a smaller product**, when they are not negative. -/
theorem mul_finite_of_le {a b a' b' : Float} (ha' : a'.isFinite = true) (hb' : b'.isFinite = true)
    (ha0 : 0 ≤ real a') (hb0 : 0 ≤ real b') (ha : real a' ≤ real a) (hb : real b' ≤ real b)
    (h : (a * b).isFinite = true) :
    (a' * b').isFinite = true ∧ 0 ≤ real (a' * b') ∧ real (a' * b') ≤ real (a * b) := by
  obtain ⟨hafin, hbfin⟩ := isFinite_of_mul h
  have hspec := mul_spec hafin hbfin
  have hspec' := mul_spec ha' hb'
  have h0 : 0 ≤ real a' * real b' := mul_nonneg ha0 hb0
  have hle : real a' * real b' ≤ real a * real b := mul_le_mul ha hb hb0 (ha0.trans ha)
  have hfin' : (a' * b').isFinite = true := by
    refine finite_of_le_of_le (x := 0) (z := a * b) ?_ ?_ isFinite_zero h
    · refine nonneg_of_value hspec'.1 ?_
      rw [hspec'.2]
      exact clamp_nonneg (le_rounded representable_zero h0)
    · refine le_iff.mpr ⟨hspec'.1, hspec.1, ?_⟩
      rw [hspec.2, hspec'.2]
      exact clamp_mono (rounded_mono hle)
  rw [real_eq_rounded hspec'.2 hfin', real_eq_rounded hspec.2 h]
  exact ⟨hfin', le_rounded representable_zero h0, rounded_mono hle⟩

namespace Solvable

/-- Better bounds are finite, and smaller as real numbers. -/
theorem better_spec (h : u.Solvable) (hb : u'.Better u) :
    (u'.y0.isFinite = true ∧ 0 ≤ real u'.y0 ∧ real u'.y0 ≤ real u.y0) ∧
      (u'.z0.isFinite = true ∧ 0 ≤ real u'.z0 ∧ real u'.z0 ≤ real u.z0) ∧
      u'.z2.isFinite = true ∧ 0 ≤ real u'.z2 ∧ real u'.z2 ≤ real u.z2 := by
  have hspec : ∀ {x' x : Float}, 0 ≤ x' → x' ≤ x → x.isFinite = true →
      x'.isFinite = true ∧ 0 ≤ real x' ∧ real x' ≤ real x := by
    intro x' x h0 hle hfin
    have hfin' := finite_of_le_of_le h0 hle isFinite_zero hfin
    exact ⟨hfin', real_nonneg h0 hfin', real_le_real hle hfin' hfin⟩
  exact ⟨hspec hb.y0_nonneg hb.y0_le h.y0_spec.1, hspec hb.z0_nonneg hb.z0_le h.z0_spec.1,
    hspec hb.z2_nonneg hb.z2_le h.z2_spec.1⟩

theorem better_contracting (h : u.Solvable) (hb : u'.Better u) : u'.Contracting :=
  ⟨hb.y0_nonneg, hb.z0_nonneg, hb.z2_nonneg, float_lt_of_le_of_lt hb.z0_le h.z0_lt_one⟩

theorem gap_better (h : u.Solvable) (hb : u'.Better u) : real u.gap ≤ real u'.gap := by
  rw [h.gap_spec.2.1, (h.better_contracting hb).gap_spec.2.1]
  exact rounded_mono (by linarith [(h.better_spec hb).2.1.2.2])

/-- The two terms of the discriminant move apart. -/
theorem discriminant_terms_better (h : u.Solvable) (hb : u'.Better u) :
    (4 * u'.z2 * u'.y0).isFinite = true ∧ real (4 * u'.z2 * u'.y0) ≤ real (4 * u.z2 * u.y0) ∧
      real (u.gap * u.gap) ≤ real (u'.gap * u'.gap) := by
  obtain ⟨⟨hyfin, hy0, hyle⟩, -, hZfin, hZ0, hZle⟩ := h.better_spec hb
  have h' := h.better_contracting hb
  have h4 : 0 ≤ real (4 : Float) := by rw [four_spec.2]; norm_num
  -- first the product with four, then the one with `y0`
  obtain ⟨hfin, hpos, hle⟩ := mul_finite_of_le four_spec.1 hZfin h4 hZ0 le_rfl hZle
    (isFinite_of_mul h.product_finite).1
  obtain ⟨hpfin, -, hple⟩ := mul_finite_of_le hfin hyfin hpos hy0 hle hyle h.product_finite
  obtain ⟨-, -, hgle⟩ := mul_finite_of_le h.gap_spec.1 h.gap_spec.1 h.gap_pos.le h.gap_pos.le
    (h.gap_better hb) (h.gap_better hb) h'.gap_mul_gap.1
  exact ⟨hpfin, hple, hgle⟩

/-- **Better bounds are solvable**: rounding keeps the order at every step. -/
theorem better (h : u.Solvable) (hb : u'.Better u) : u'.Solvable := by
  have h' := h.better_contracting hb
  obtain ⟨hpfin, hple, hgle⟩ := h.discriminant_terms_better hb
  have hspec := sub_spec h.gap_mul_gap.1 h.product_finite
  have hspec' := sub_spec h'.gap_mul_gap.1 hpfin
  refine ⟨h', le_iff.mpr ⟨zero_isNumber, hspec'.1, ?_⟩⟩
  calc value 0 ≤ value u.discriminant := (le_iff.mp h.real_roots).2.2
    _ = clamp (rounded (real (u.gap * u.gap) - real (4 * u.z2 * u.y0))) := hspec.2
    _ ≤ clamp (rounded (real (u'.gap * u'.gap) - real (4 * u'.z2 * u'.y0))) :=
        clamp_mono (rounded_mono (by linarith))
    _ = value u'.discriminant := hspec'.2.symm

theorem discriminant_better (h : u.Solvable) (hb : u'.Better u) :
    real u.discriminant ≤ real u'.discriminant := by
  obtain ⟨hpfin, hple, hgle⟩ := h.discriminant_terms_better hb
  have h' := h.better hb
  have hspec := sub_spec h.gap_mul_gap.1 h.product_finite
  have hspec' := sub_spec h'.gap_mul_gap.1 hpfin
  calc real u.discriminant = rounded (real (u.gap * u.gap) - real (4 * u.z2 * u.y0)) :=
        real_eq_rounded hspec.2 h.discriminant_spec.1
    _ ≤ rounded (real (u'.gap * u'.gap) - real (4 * u'.z2 * u'.y0)) := rounded_mono (by linarith)
    _ = real u'.discriminant := (real_eq_rounded hspec'.2 h'.discriminant_spec.1).symm

theorem halfSum_better (h : u.Solvable) (hb : u'.Better u) : real u.halfSum ≤ real u'.halfSum := by
  rw [h.halfSum_spec.2.1, (h.better hb).halfSum_spec.2.1]
  have hroot := rounded_mono (Real.sqrt_le_sqrt (h.discriminant_better hb))
  have hsum := rounded_mono (add_le_add (h.gap_better hb) hroot)
  exact rounded_mono (mul_le_mul_of_nonneg_left hsum (by norm_num))

/-- **The smaller root of better bounds** is no larger. -/
theorem smallRoot_better (h : u.Solvable) (hb : u'.Better u) : u'.smallRoot ≤ u.smallRoot := by
  have h' := h.better hb
  refine le_iff.mpr ⟨h'.smallRoot_spec.1, h.smallRoot_spec.1, ?_⟩
  rw [h'.smallRoot_spec.2.1, h.smallRoot_spec.2.1]
  exact clamp_mono (rounded_mono (div_le_div₀ h.y0_spec.2 (h.better_spec hb).1.2.2 h.halfSum_pos
    (h.halfSum_better hb)))

/-- **The larger root of better bounds** is no smaller. -/
theorem largeRoot_better (h : u.Solvable) (hb : u'.Better u) : u.largeRoot ≤ u'.largeRoot := by
  have h' := h.better hb
  obtain ⟨-, -, hZfin, hZ0, hZle⟩ := h.better_spec hb
  refine le_iff.mpr ⟨h.largeRoot_isNumber, h'.largeRoot_isNumber, ?_⟩
  rcases hZ0.eq_or_lt with hzero | hpos
  · rw [h'.largeRoot_of_zero hzero.symm, value_infinity]
    exact le_top
  · rw [(h'.largeRoot_of_pos hpos).2, (h.largeRoot_of_pos (hpos.trans_le hZle)).2]
    exact clamp_mono (rounded_mono (div_le_div₀ h'.halfSum_pos.le (h.halfSum_better hb) hpos hZle))

end Solvable

end Bounds

end CertifiedZeros
