import CertifiedZeros.Proofs.Certificate.Verdict

/-! # The order of the roots

The roots `y0 / q` and `q / z2` are rounded apart from each other. Before that rounding their order
is that of the product `y0 · z2` and the square of `q`. Since `q` is at least half the slope, the
order can only be wrong where `4 · z2 · y0` exceeds the square of the slope: there are no real roots
then, but the discriminant is rounded to zero.

* **`Solvable.half_gap_le_halfSum`** — `q` is at least half the slope.
* **`Solvable.rounded_gap_mul_gap`**, **`Solvable.halfSum_of_lt`** — without real roots, the two
  terms of the discriminant are rounded alike, and `q` is half the slope.
* **`certify_root_order`** — the roots are in order if they are real; if not, they are out of order
  by two floats at most, and nothing is tested.
* **`certify_root_order_crossed`** — roots that are out of order. -/

namespace CertifiedZeros

open Binary64 CertifiedZeros.Interval

variable {b : Bounds Interval} {u : Bounds Float} {w : Witness} {report : Report} {r₁ r₂ : Float}

namespace Bounds.Solvable

/-! ## The order of the quotients -/

/-- Half the slope is exact. -/
theorem representable_half_gap (h : u.Solvable) : Representable (1 / 2 * real u.gap) := by
  obtain ⟨hfin, -, hlow, -⟩ := h.gap_spec
  refine (representable_real hfin).half ?_
  rw [abs_of_pos h.gap_pos]
  exact (zpow_two_le (by norm_num)).trans hlow

/-- **Half the sum is at least half the slope**, however it is rounded. -/
theorem half_gap_le_halfSum (h : u.Solvable) : 1 / 2 * real u.gap ≤ real u.halfSum := by
  obtain ⟨-, hroot, hroot0, -⟩ := h.sqrt_discriminant_spec
  rw [h.halfSum_spec.2.1, ← hroot]
  have hsum : real u.gap ≤ rounded (real u.gap + real u.discriminant.sqrt) :=
    le_rounded (representable_real h.gap_spec.1) (by linarith)
  exact le_rounded h.representable_half_gap (by linarith)

/-- **The roots are in order** where the product of `y0` and `z2` is at most the square of `q`. -/
theorem smallRoot_le_largeRoot (h : u.Solvable)
    (hle : real u.y0 * real u.z2 ≤ real u.halfSum * real u.halfSum) :
    u.smallRoot ≤ u.largeRoot := by
  refine le_iff.mpr ⟨h.smallRoot_spec.1, h.largeRoot_isNumber, ?_⟩
  rcases h.z2_spec.2.eq_or_lt with hzero | hpos
  · rw [h.largeRoot_of_zero hzero.symm, value_infinity]
    exact le_top
  · rw [h.smallRoot_spec.2.1, (h.largeRoot_of_pos hpos).2]
    exact clamp_mono (rounded_mono ((div_le_div_iff₀ h.halfSum_pos hpos).mpr hle))

/-- **Real roots are in order.** -/
theorem smallRoot_le_largeRoot_of_le (h : u.Solvable)
    (hD : 4 * real u.z2 * real u.y0 ≤ real u.gap * real u.gap) : u.smallRoot ≤ u.largeRoot := by
  have hhalf := h.half_gap_le_halfSum
  have hgap := h.gap_pos
  have hsquare := mul_le_mul hhalf hhalf (by linarith) h.halfSum_pos.le
  exact h.smallRoot_le_largeRoot (by linarith)

/-! ## A negative discriminant that is rounded to zero -/

section NoRealRoots

variable (h : u.Solvable) (hD : real u.gap * real u.gap < 4 * real u.z2 * real u.y0)
include h hD

/-- The polynomial is not linear. -/
theorem z2_pos_of_lt : 0 < real u.z2 := by
  by_contra hneg
  rw [le_antisymm (not_lt.mp hneg) h.z2_spec.2, mul_zero, zero_mul] at hD
  exact absurd hD (not_lt.mpr (mul_self_nonneg _))

/-- **The terms of the discriminant are rounded alike**, or the discriminant would be negative: a
difference of floats that is not zero is not rounded to zero. -/
theorem rounded_gap_mul_gap :
    rounded (real u.gap * real u.gap) = rounded (4 * real u.z2 * real u.y0) := by
  refine le_antisymm (rounded_mono hD.le) (not_lt.mp fun hlt => ?_)
  -- both terms lie on the grid of the smallest floats, and so does their difference
  have hgrid := (representable_rounded (4 * real u.z2 * real u.y0)).onGrid_least.sub
    (representable_rounded (real u.gap * real u.gap)).onGrid_least
  have hpos := (rounded_pos_iff le_rfl hgrid).mpr (by linarith)
  obtain ⟨-, hdiscriminant, h0, -⟩ := h.discriminant_spec
  rw [hdiscriminant, ← neg_sub, rounded_neg] at h0
  linarith

/-- **Half the sum is half the slope**, without an error. -/
theorem halfSum_of_lt : real u.halfSum = 1 / 2 * real u.gap := by
  rw [h.halfSum_spec.2.1, h.discriminant_spec.2.1, h.rounded_gap_mul_gap hD, sub_self, rounded_zero,
    Real.sqrt_zero, rounded_zero, add_zero, rounded_eq (representable_real h.gap_spec.1),
    rounded_eq h.representable_half_gap]

/-- **The roots are not in order.** -/
theorem largeRoot_le_smallRoot_of_lt : u.largeRoot ≤ u.smallRoot := by
  have hpos := h.z2_pos_of_lt hD
  obtain ⟨hnum, hval⟩ := h.largeRoot_of_pos hpos
  refine le_iff.mpr ⟨hnum, h.smallRoot_spec.1, ?_⟩
  rw [hval, h.smallRoot_spec.2.1]
  refine clamp_mono (rounded_mono ((div_le_div_iff₀ hpos h.halfSum_pos).mpr ?_))
  rw [h.halfSum_of_lt hD]
  linarith

/-- **The exact quotients are close**: relative to the larger root they are two roundoffs apart, the
distance of two numbers that are rounded alike. -/
theorem quotient_le_of_lt : real u.y0 / real u.halfSum
    ≤ real u.halfSum / real u.z2 + 2 * (real u.halfSum / real u.z2 * unitRoundoff) := by
  have hpos := h.z2_pos_of_lt hD
  have hq := h.halfSum_pos
  have hnormal : (2 : ℝ) ^ (-1022 : ℤ) ≤ real u.gap * real u.gap := by
    have hlow := h.gap_spec.2.2.1
    calc (2 : ℝ) ^ (-1022 : ℤ) ≤ (2 : ℝ) ^ (-53 : ℤ) * (2 : ℝ) ^ (-53 : ℤ) := by
          rw [← zpow_add₀ (by norm_num)]
          exact zpow_two_le (by norm_num)
      _ ≤ real u.gap * real u.gap := mul_le_mul hlow hlow (zpow_two_pos _).le h.gap_pos.le
  -- the products are rounded alike, so they are within two roundoffs of the square
  have hclose := sub_le_of_rounded_eq hnormal hD.le (h.rounded_gap_mul_gap hD)
  have hsquare : real u.gap * real u.gap = 4 * (real u.halfSum * real u.halfSum) := by
    rw [h.halfSum_of_lt hD]
    ring
  rw [hsquare] at hclose
  rw [div_le_iff₀ hq]
  refine le_of_mul_le_mul_right ?_ hpos
  have hcancel : real u.halfSum / real u.z2 * real u.z2 = real u.halfSum :=
    div_mul_cancel₀ _ hpos.ne'
  calc real u.y0 * real u.z2
      ≤ real u.halfSum * real u.halfSum + 2 * (real u.halfSum * unitRoundoff) * real u.halfSum := by
        linarith
    _ = (real u.halfSum / real u.z2 + 2 * (real u.halfSum / real u.z2 * unitRoundoff))
          * real u.halfSum * real u.z2 := by
        linear_combination
          -(1 + 2 * unitRoundoff) * real u.halfSum * hcancel

/-- **The roots are out of order by two floats at most.** -/
theorem smallRoot_le_nextUp_of_lt : u.smallRoot ≤ nextUp (nextUp u.largeRoot) := by
  obtain ⟨hnum, hval⟩ := h.largeRoot_of_pos (h.z2_pos_of_lt hD)
  have hquotient : 0 ≤ real u.halfSum / real u.z2 :=
    (div_pos h.halfSum_pos (h.z2_pos_of_lt hD)).le
  refine le_iff.mpr ⟨h.smallRoot_spec.1, isNumber_nextUp (isNumber_nextUp hnum), ?_⟩
  rw [h.smallRoot_spec.2.1]
  refine clamp_rounded_le_nextUp_nextUp hnum hval hquotient
    ((h.quotient_le_of_lt hD).trans_lt ?_)
  -- a roundoff of a number is less than its last place
  have hplaces := abs_lt_zpow (real u.halfSum / real u.z2)
  rw [abs_of_nonneg hquotient, show (53 : ℤ) = (53 : ℕ) by norm_num, zpow_two_add] at hplaces
  have hroundoff := mul_lt_mul_of_pos_right hplaces unitRoundoff_pos
  have hone : 2 ^ 53 * unitRoundoff = 1 := by
    rw [unitRoundoff]
    norm_num
  have hunit : 2 ^ 53 * (2 : ℝ) ^ unitExponent (real u.halfSum / real u.z2) * unitRoundoff
      = (2 : ℝ) ^ unitExponent (real u.halfSum / real u.z2) := by
    linear_combination (2 : ℝ) ^ unitExponent (real u.halfSum / real u.z2) * hone
  linarith

end NoRealRoots

end Bounds.Solvable

/-- **The order of the reported roots.** It is right where the polynomial with the rounded slope has
real roots. Where it has none, but the discriminant is rounded to zero, the roots are not in order,
by two floats at most, and the report says that there is no room between them. -/
theorem certify_root_order (hb : b.OfNorms) (h : b.certify w = .ok report)
    (hroots : report.roots = some (r₁, r₂)) :
    (4 * real b.z2.hi * real b.y0.hi ≤ real (1 - b.z0.hi) * real (1 - b.z0.hi) → r₁ ≤ r₂) ∧
      (real (1 - b.z0.hi) * real (1 - b.z0.hi) < 4 * real b.z2.hi * real b.y0.hi →
        r₂ ≤ r₁ ∧ r₁ ≤ nextUp (nextUp r₂) ∧ report.verdict = .notCertified .noInterior) := by
  have hends := Bounds.certify_eq_iff.mp h
  obtain ⟨hz, hd, rfl, rfl⟩ := hends.of_roots hroots
  have hs : b.upper.Solvable := ⟨hb.contracting hz, hd⟩
  refine ⟨hs.smallRoot_le_largeRoot_of_le, fun hD => ?_⟩
  have hle := hs.largeRoot_le_smallRoot_of_lt hD
  refine ⟨hle, hs.smallRoot_le_nextUp_of_lt hD, hends.verdict_of_not_lt hroots fun hlt => ?_⟩
  exact absurd (lt_iff.mp hlt).2.2 (not_lt.mpr (le_iff.mp hle).2.2)

/-! ## Roots that are out of order -/

/-- **Bounds near a double root.** The slope is rounded down from `1 - 1.5 · 2 ^ -53`, and `z2` is a
float close to `1 / 12`, such that four times its product with `y0` lies between the squares of the
slope before and after that rounding. -/
def nearDoubleRoot : Bounds Float := ⟨3, .ofBits 0x3CA8000000000000, .ofBits 0x3FB5555555555553⟩

theorem nearDoubleRoot_spec : real nearDoubleRoot.y0 = 3 ∧
    real nearDoubleRoot.z0 = 3 * (2 : ℝ) ^ (-54 : ℤ) ∧
    real nearDoubleRoot.z2 = 6004799503160659 * (2 : ℝ) ^ (-56 : ℤ) ∧
    real (1 - nearDoubleRoot.z0) = 4503599627370495 * (2 : ℝ) ^ (-52 : ℤ) := by
  have hy : nearDoubleRoot.y0 = .ofBits 0x4008000000000000 := by decide +kernel
  have hgap : 1 - nearDoubleRoot.z0 = .ofBits 0x3FEFFFFFFFFFFFFE := by decide +kernel
  have hz : nearDoubleRoot.z0 = .ofBits 0x3CA8000000000000 := rfl
  have hZ : nearDoubleRoot.z2 = .ofBits 0x3FB5555555555553 := rfl
  -- a float given by its word is its significand times a power of two
  have hreal : ∀ {x : Float} {v : UInt64} {m : ℕ} {e : ℤ}, x = .ofBits v → v.toNat < infinityWord →
      wordSignificand v.toNat = m → wordExponent v.toNat = e → real x = m * (2 : ℝ) ^ e := by
    rintro x v m e rfl hv rfl rfl
    exact (real_ofBits hv).2
  rw [hreal hy (by decide) (m := 6755399441055744) (e := -51) (by decide) (by decide),
    hreal hz (by decide) (m := 6755399441055744) (e := -105) (by decide) (by decide),
    hreal hZ (by decide) (m := 6004799503160659) (e := -56) (by decide) (by decide),
    hreal hgap (by decide) (m := 9007199254740990) (e := -53) (by decide) (by decide)]
  refine ⟨?_, ?_, ?_, ?_⟩ <;> norm_num

theorem ofNorms_nearDoubleRoot : nearDoubleRoot.lift.OfNorms :=
  Bounds.ofNorms_lift (by decide +kernel) (by decide +kernel) (by decide +kernel)

/-- The double root of the bounds `0.25`, `0` and `1`, and the bounds near another one. -/
theorem certify_root_order_double :
    (∃ report r₁ r₂, (Bounds.mk 0.25 0 1).lift.certify .midpoint = .ok report ∧
      report.roots = some (r₁, r₂) ∧ r₁ ≤ r₂) ∧
    ∃ report r₁ r₂, nearDoubleRoot.lift.certify .midpoint = .ok report ∧
      report.roots = some (r₁, r₂) ∧ r₂ ≤ r₁ ∧ r₁ ≤ nextUp (nextUp r₂) := by
  constructor
  · have hroots : ((Bounds.mk 0.25 0 1).lift.certify .midpoint).toOption.map Report.roots
        = some (some (0.5, 0.5)) := by decide +kernel
    obtain ⟨report, h, hroots⟩ := exists_ok_of_map hroots
    have hquarter := (power_spec (x := 0.25) (w := 0x3FD0000000000000) (e := -2) (by decide +kernel)
      (by decide) (by decide) (by decide)).2
    have hslope : (1 : Float) - 0 = 1 := by decide +kernel
    refine ⟨report, _, _, h, hroots, (certify_root_order (Bounds.ofNorms_lift (by decide +kernel)
      (by decide +kernel) (by decide +kernel)) h hroots).1 ?_⟩
    change 4 * real (1 : Float) * real (0.25 : Float)
      ≤ real ((1 : Float) - 0) * real ((1 : Float) - 0)
    rw [hslope, real_one, hquarter]
    norm_num
  · have hroots : (nearDoubleRoot.lift.certify .midpoint).toOption.map Report.roots
        = some (some (.ofBits 0x4018000000000002, .ofBits 0x4018000000000001)) := by decide +kernel
    obtain ⟨report, h, hroots⟩ := exists_ok_of_map hroots
    obtain ⟨hy, -, hZ, hgap⟩ := nearDoubleRoot_spec
    obtain ⟨hle, hnear, -⟩ := (certify_root_order ofNorms_nearDoubleRoot h hroots).2 (by
      change real (1 - nearDoubleRoot.z0) * real (1 - nearDoubleRoot.z0)
        < 4 * real nearDoubleRoot.z2 * real nearDoubleRoot.y0
      rw [hgap, hZ, hy]
      norm_num)
    exact ⟨report, _, _, h, hroots, hle, hnear⟩

/-- **Roots that are out of order**: the bounds are finite and not negative, and the exact
polynomial has real roots, but of the floats the first is larger. -/
theorem certify_root_order_crossed :
    ∃ u : Bounds Float, u.y0.isFinite = true ∧ u.z0.isFinite = true ∧ u.z2.isFinite = true ∧
      u.lift.OfNorms ∧ 4 * real u.z2 * real u.y0 ≤ (1 - real u.z0) ^ 2 ∧
      ∃ report r₁ r₂, u.lift.certify .midpoint = .ok report ∧ report.roots = some (r₁, r₂) ∧
        r₂ < r₁ := by
  have hroots : (nearDoubleRoot.lift.certify .midpoint).toOption.map Report.roots
      = some (some (.ofBits 0x4018000000000002, .ofBits 0x4018000000000001)) := by decide +kernel
  obtain ⟨report, h, hroots⟩ := exists_ok_of_map hroots
  obtain ⟨hy, hz, hZ, -⟩ := nearDoubleRoot_spec
  refine ⟨nearDoubleRoot, by decide +kernel, by decide +kernel, by decide +kernel,
    ofNorms_nearDoubleRoot, ?_, report, _, _, h, hroots, by decide +kernel⟩
  rw [hy, hz, hZ]
  norm_num

end CertifiedZeros
