import CertifiedZeros.Proofs.Certificate.BetterBounds
import CertifiedZeros.Proofs.Certificate.PolynomialAccuracy
import CertifiedZeros.Proofs.Certificate.Radius

/-! # Better bounds at the midpoint

The midpoint witness moves with the bounds, so that better bounds are tested at another radius. Their
roots move outwards, and the test is the only obstacle that is left. It can fail near a double root,
where the polynomial is not lower than the errors of its evaluation.

* **`Bounds.Apart`** — the discriminant leaves a margin for these errors.
* **`room_of_vertex`**, **`room_of_infinite`** — with that margin there is room for the errors at the
  radius between finite roots, and at twice the smaller one.
* **`polynomialAbove_midRadius_neg`** — then the test is passed.
* **`Bounds.ClearlyBetter`** — better by a margin than bounds with a certificate; their roots are apart.
* **`certify_midpoint_better`** — what becomes of a certificate at the midpoint under better bounds.
* **`Bounds.LosesMidpoint`** — better bounds that lose the certificate. -/

namespace CertifiedZeros

open Binary64 CertifiedZeros.Interval

variable {u u' : Bounds Float} {report : Report}

/-- A sum with an operand that is infinite downwards, and none upwards. -/
theorem Interval.ofSum_hi_eq_bot {a b : Float} (ha : IsNumber a) (hb : IsNumber b)
    (hat : value a ≠ ⊤) (hbt : value b ≠ ⊤) (h : value a = ⊥ ∨ value b = ⊥) :
    IsNumber (ofSum a b).hi ∧ value (ofSum a b).hi = ⊥ := by
  have hinf : a.isFinite = false ∨ b.isFinite = false :=
    h.imp (fun h => isFinite_eq_false (.inr h)) fun h => isFinite_eq_false (.inr h)
  obtain ⟨hnum, hval⟩ := add_infinite ha hb hinf (fun h => hat h.1) fun h => hbt h.2
  rw [ofSum_eq_point hinf]
  refine ⟨hnum, hval.trans ?_⟩
  rcases h with h | h
  · rw [h, EReal.bot_add]
  · rw [h, EReal.add_bot]

namespace Bounds

/-! ## A margin between the roots -/

/-- **The exact roots are clearly apart**: the discriminant leaves a margin for rounding, and for the
underflow of the square of a radius between them. -/
def Apart (u : Bounds Float) : Prop :=
  4 * real u.z2 * real u.y0 + (2 : ℝ) ^ (-1070 : ℤ) * real u.z2 ^ 2
    ≤ (1 - (2 : ℝ) ^ (-47 : ℤ)) * u.slope ^ 2

theorem margin_underflow : (2 : ℝ) ^ (-1070 : ℤ) = 32 * underflowError := by
  rw [underflowError, show (-1070 : ℤ) = -1075 + (5 : ℕ) by norm_num, zpow_two_add]
  ring

theorem apart_iff : u.Apart ↔ 4 * real u.z2 * real u.y0 + 32 * underflowError * real u.z2 ^ 2
    ≤ (1 - 64 * unitRoundoff) * u.slope ^ 2 := by
  have hmargin : (2 : ℝ) ^ (-47 : ℤ) = 64 * unitRoundoff := by
    rw [unitRoundoff, show (-47 : ℤ) = -53 + (6 : ℕ) by norm_num, zpow_two_add]
    ring
  rw [Apart, hmargin, margin_underflow]

namespace Solvable

/-- Roots that are apart are real. -/
theorem discriminant_nonneg (h : u.Solvable) (ha : u.Apart) :
    4 * real u.z2 * real u.y0 ≤ u.slope ^ 2 ∧ 32 * underflowError * real u.z2 ^ 2 ≤ u.slope ^ 2 := by
  have hη := underflowError_pos
  have hproduct : 0 ≤ real u.z2 * real u.y0 := mul_nonneg h.z2_spec.2 h.y0_spec.2
  have hsquare : 0 ≤ underflowError * real u.z2 ^ 2 := by positivity
  have hU0 := (roundoff_mul_le (sq_nonneg u.slope)).1
  have hmargin := apart_iff.mp ha
  constructor <;> linarith

/-- **The vertex of a polynomial whose roots are apart**: its height is the slope times half the
vertex, far above an underflow. -/
theorem vertex_spec (h : u.Solvable) (ha : u.Apart) (hZ : 0 < real u.z2) :
    0 < u.vertex ∧ u.slope = 2 * real u.z2 * u.vertex ∧
      underflowError ≤ unitRoundoff * u.vertex ∧
      16 * underflowError ≤ unitRoundoff * (real u.z2 * u.vertex ^ 2) ∧
      real u.y0 + 8 * underflowError * real u.z2
        ≤ (1 - 64 * unitRoundoff) * (real u.z2 * u.vertex ^ 2) := by
  obtain ⟨hle, hpos, hone⟩ := h.slope_spec
  have hη := underflowError_pos
  have hU := unitRoundoff_pos
  have hV : 0 < u.vertex := div_pos hpos (by linarith)
  have hslope : u.slope = 2 * real u.z2 * u.vertex := by
    rw [vertex]
    field_simp
  have hηU : underflowError ≤ unitRoundoff ^ 4 / 2 ^ 40 := by
    calc underflowError ≤ unitRoundoff ^ 6 := underflowError_le_pow
      _ = unitRoundoff ^ 4 * unitRoundoff ^ 2 := by ring
      _ ≤ unitRoundoff ^ 4 * (1 / 2 ^ 20) ^ 2 := by
          have hsmall := unitRoundoff_le
          gcongr
      _ = unitRoundoff ^ 4 / 2 ^ 40 := by ring
  have hvertex : 8 * underflowError ≤ u.vertex ^ 2 := by
    have hsquare := (h.discriminant_nonneg ha).2
    rw [hslope] at hsquare
    have hZ2 : 0 < real u.z2 ^ 2 := by positivity
    refine le_of_mul_le_mul_right ?_ hZ2
    linarith
  refine ⟨hV, hslope, ?_, ?_, ?_⟩
  · refine (abs_le_of_sq_le_sq ?_ (by positivity)).trans' (le_abs_self _)
    calc underflowError ^ 2 = underflowError * underflowError := sq _
      _ ≤ unitRoundoff ^ 2 * (8 * underflowError) := by
          have hU4 : unitRoundoff ^ 4 ≤ unitRoundoff ^ 2 :=
            pow_le_pow_of_le_one hU.le (hle.trans hone) (by norm_num)
          exact mul_le_mul (by linarith [sq_nonneg unitRoundoff]) (by linarith) hη.le (by positivity)
      _ ≤ unitRoundoff ^ 2 * u.vertex ^ 2 := mul_le_mul_of_nonneg_left hvertex (by positivity)
      _ = (unitRoundoff * u.vertex) ^ 2 := by ring
  · refine (abs_le_of_sq_le_sq ?_ (by positivity)).trans' (le_abs_self _)
    have hhalf : (unitRoundoff / 2) ^ 2 ≤ (real u.z2 * u.vertex) ^ 2 :=
      pow_le_pow_left₀ (by positivity) (by linarith) 2
    calc (16 * underflowError) ^ 2 = 256 * (underflowError * underflowError) := by ring
      _ ≤ 256 * (unitRoundoff ^ 4 / 2 ^ 40 * underflowError) := by gcongr
      _ ≤ unitRoundoff ^ 2 * (unitRoundoff / 2) ^ 2 * (8 * underflowError) := by
          have h0 : 0 ≤ unitRoundoff ^ 4 * underflowError := by positivity
          linarith
      _ ≤ unitRoundoff ^ 2 * (real u.z2 * u.vertex) ^ 2 * u.vertex ^ 2 := by gcongr
      _ = (unitRoundoff * (real u.z2 * u.vertex ^ 2)) ^ 2 := by ring
  · have hmargin := apart_iff.mp ha
    rw [hslope] at hmargin
    refine le_of_mul_le_mul_right ?_ (by linarith : 0 < 4 * real u.z2)
    linarith

/-- **At the vertex, up to a few roundoffs,** there is room for the errors of the polynomial. -/
theorem room_of_vertex {r : ℝ} (h : u.Solvable) (ha : u.Apart) (hZ : 0 < real u.z2)
    (hr : |r - u.vertex| ≤ 64 * (unitRoundoff * u.vertex)) :
    squareBound u r + (real u.y0 + 2 * (real u.y0 * unitRoundoff + underflowError))
      ≤ u.slope * r * (1 - 13 * unitRoundoff) - 5 * underflowError := by
  obtain ⟨-, -, hone⟩ := h.slope_spec
  obtain ⟨hV, hslope, -, hη, hy⟩ := h.vertex_spec ha hZ
  have hU := unitRoundoff_pos
  have hη0 := underflowError_pos
  -- the height of the vertex, and how far the terms move from it
  set T := real u.z2 * u.vertex ^ 2 with hT
  set a := real u.z2 * u.vertex * (r - u.vertex) with hadef
  set b := real u.z2 * (r - u.vertex) ^ 2 with hbdef
  have hT0 : 0 < T := by positivity
  obtain ⟨hUT0, hUT⟩ := roundoff_mul_le hT0.le
  obtain ⟨hUUT0, hUUT⟩ := roundoff_mul_le hUT0
  have ha' : |a| ≤ 64 * (unitRoundoff * T) := by
    rw [hadef, abs_mul, abs_of_pos (by positivity : 0 < real u.z2 * u.vertex)]
    calc real u.z2 * u.vertex * |r - u.vertex|
        ≤ real u.z2 * u.vertex * (64 * (unitRoundoff * u.vertex)) := by gcongr
      _ = 64 * (unitRoundoff * T) := by ring
  have hb : b ≤ 4096 * (unitRoundoff * (unitRoundoff * T)) := by
    have hsq : (r - u.vertex) ^ 2 ≤ (64 * (unitRoundoff * u.vertex)) ^ 2 :=
      sq_le_sq' (abs_le.mp hr).1 (abs_le.mp hr).2
    calc b ≤ real u.z2 * (64 * (unitRoundoff * u.vertex)) ^ 2 :=
          mul_le_mul_of_nonneg_left hsq hZ.le
      _ = 4096 * (unitRoundoff * (unitRoundoff * T)) := by ring
  have hb0 : 0 ≤ b := by positivity
  have hUa : |unitRoundoff * a| ≤ 64 * (unitRoundoff * (unitRoundoff * T)) := by
    rw [abs_mul, abs_of_pos hU]
    linarith [mul_le_mul_of_nonneg_left ha' hU.le]
  have hUb : unitRoundoff * b ≤ b / 2 ^ 20 := (roundoff_mul_le hb0).2
  have hlinear : real u.z2 * r ≤ 1 := by
    have hstep := mul_le_mul_of_nonneg_left (abs_le.mp hr).2 hZ.le
    have hroundoff := (roundoff_mul_le (mul_pos hZ hV).le).2
    linarith
  have hsquare : real u.z2 * r ^ 2 = T + 2 * a + b := by
    rw [hT, hadef, hbdef]
    ring
  have hterm : u.slope * r = 2 * T + 2 * a := by
    rw [hslope, hT, hadef]
    ring
  have hηlinear := mul_le_mul_of_nonneg_left hlinear hη0.le
  have hηZ : 0 ≤ underflowError * real u.z2 := by positivity
  have hUy : real u.y0 * unitRoundoff ≤ T * unitRoundoff :=
    mul_le_mul_of_nonneg_right (by linarith) hU.le
  rw [squareBound, hsquare, hterm]
  rw [abs_le] at ha' hUa
  linarith

/-- **Below an infinite root** the quadratic term is negligible, up to radii whose square is finite. -/
theorem z2_mul_le {r : ℝ} (h : u.Solvable) (ha : u.Apart) (hinf : u.largeRoot.isFinite = false)
    (hr : real u.z2 = 0 ∨ r < (2 : ℝ) ^ (512 : ℤ)) :
    real u.z2 ≤ unitRoundoff * u.slope ∧ real u.z2 * r ≤ unitRoundoff * u.slope := by
  obtain ⟨-, hpos, -⟩ := h.slope_spec
  have hbound0 := mul_nonneg unitRoundoff_pos.le hpos.le
  rcases h.z2_spec.2.eq_or_lt with hzero | hZ
  · rw [← hzero, zero_mul]
    exact ⟨hbound0, hbound0⟩
  have hr := hr.resolve_left hZ.ne'
  obtain ⟨-, hlow, hhigh⟩ := h.halfSum_residual (h.discriminant_nonneg ha).1
  -- the quotient that overflows is large
  have hquotient : (2 : ℝ) ^ (1023 : ℤ) < real u.halfSum / real u.z2 := by
    obtain ⟨hnum, hval⟩ := h.largeRoot_of_pos hZ
    refine lt_of_clamp_eq_top (representable_zpow (by norm_num))
      (by rw [abs_of_pos (zpow_two_pos _)]; exact zpow_two_lt (by norm_num)) ?_
    refine hval.symm.trans (hnum.value_eq_top ?_ hinf)
    rw [hval]
    exact clamp_nonneg (le_rounded representable_zero (div_nonneg h.halfSum_pos.le hZ.le))
  rw [lt_div_iff₀ hZ] at hquotient
  have hscale : 2 * (2 : ℝ) ^ (512 : ℤ) ≤ unitRoundoff * (2 : ℝ) ^ (1023 : ℤ) := by
    rw [unitRoundoff, ← zpow_add₀ (by norm_num), ← zpow_one_add₀ (by norm_num)]
    exact zpow_two_le (by norm_num)
  have hone : (1 : ℝ) ≤ (2 : ℝ) ^ (512 : ℤ) := one_le_zpow₀ (by norm_num) (by norm_num)
  generalize (2 : ℝ) ^ (1023 : ℤ) = C at *
  generalize (2 : ℝ) ^ (512 : ℤ) = c at *
  have hc : real u.z2 * c ≤ unitRoundoff * u.slope := by
    have hproduct := mul_le_mul_of_nonneg_left (hquotient.le.trans hhigh) unitRoundoff_pos.le
    have hscaled := mul_le_mul_of_nonneg_left hscale hZ.le
    linarith
  constructor
  · exact (le_mul_of_one_le_right hZ.le hone).trans hc
  · exact (mul_le_mul_of_nonneg_left hr.le hZ.le).trans hc

/-- **At twice the smaller root**, below an infinite one, there is room for the errors of the
polynomial, unless the height of the polynomial is nearly an underflow. -/
theorem room_of_infinite {r : ℝ} (h : u.Solvable) (ha : u.Apart) (hlt : u.smallRoot < u.largeRoot)
    (hinf : u.largeRoot.isFinite = false) (hdef : r = 2 * real u.smallRoot)
    (hr : real u.z2 = 0 ∨ r < (2 : ℝ) ^ (512 : ℤ)) (hy : 32 * underflowError ≤ real u.y0) :
    squareBound u r + (real u.y0 + 2 * (real u.y0 * unitRoundoff + underflowError))
      ≤ u.slope * r * (1 - 13 * unitRoundoff) - 5 * underflowError := by
  obtain ⟨-, hpos, hone⟩ := h.slope_spec
  obtain ⟨hZ, hZr⟩ := h.z2_mul_le ha hinf hr
  obtain ⟨hlow, hhigh⟩ := (h.halfSum_residual (h.discriminant_nonneg ha).1).2
  have hq := h.halfSum_pos
  have hU := unitRoundoff_pos
  have hη := underflowError_pos
  have hy0 := h.y0_spec.2
  -- the slope times the exact quotient is nearly `y0`
  set p := u.slope * (real u.y0 / real u.halfSum) with hp
  have hquotient0 : 0 ≤ real u.y0 / real u.halfSum := div_nonneg hy0 hq.le
  have hplow : real u.y0 ≤ 1.01 * p := by
    have hmul := mul_le_mul_of_nonneg_right hhigh hquotient0
    rw [mul_div_cancel₀ _ hq.ne'] at hmul
    linarith
  have hphigh : 0.49 * p ≤ real u.y0 := by
    have hmul := mul_le_mul_of_nonneg_right hlow hquotient0
    rw [mul_div_cancel₀ _ hq.ne'] at hmul
    linarith
  -- and the radius is twice the rounded quotient
  have hround : |u.slope * r - 2 * p| ≤ 2 * (p / 2 ^ 20 + underflowError) := by
    have herr := abs_sub_rounded_le_relative (real u.y0 / real u.halfSum)
    rw [abs_of_nonneg hquotient0, abs_sub_comm] at herr
    have hscaled := mul_le_mul_of_nonneg_left herr hpos.le
    have hηB : u.slope * underflowError ≤ 1 * underflowError := mul_le_mul_of_nonneg_right hone hη.le
    have hUp := (roundoff_mul_le (mul_nonneg hpos.le hquotient0)).2
    have hsmall := real_eq_rounded h.smallRoot_spec.2.1 (h.smallRoot_finite hlt).1
    have hsplit : u.slope * r - 2 * p
        = 2 * u.slope * (rounded (real u.y0 / real u.halfSum) - real u.y0 / real u.halfSum) := by
      rw [hdef, hsmall, hp]
      ring
    rw [hsplit, abs_mul, abs_of_pos (by linarith)]
    linarith
  have hr0 : 0 ≤ r := by linarith [(h.smallRoot_finite hlt).2]
  have hs0 : 0 ≤ u.slope * r := mul_nonneg hpos.le hr0
  have hsquare : real u.z2 * r ^ 2 ≤ u.slope * r / 2 ^ 20 := by
    calc real u.z2 * r ^ 2 = real u.z2 * r * r := by ring
      _ ≤ unitRoundoff * u.slope * r := mul_le_mul_of_nonneg_right hZr hr0
      _ = unitRoundoff * (u.slope * r) := by ring
      _ ≤ u.slope * r / 2 ^ 20 := (roundoff_mul_le hs0).2
  have hZ1 : real u.z2 ≤ 1 / 2 ^ 20 := by linarith [(roundoff_mul_le hpos.le).2]
  have hZr1 : real u.z2 * r ≤ 1 / 2 ^ 20 := by linarith [(roundoff_mul_le hpos.le).2]
  have hsquareU : unitRoundoff * (real u.z2 * r ^ 2) ≤ real u.z2 * r ^ 2 / 2 ^ 20 :=
    (roundoff_mul_le (mul_nonneg h.z2_spec.2 (sq_nonneg r))).2
  have hηZr := mul_le_mul_of_nonneg_left hZr1 hη.le
  have hηZ := mul_le_mul_of_nonneg_left hZ1 hη.le
  have hUy := (roundoff_mul_le hy0).2
  have hUs := (roundoff_mul_le hs0).2
  rw [abs_le] at hround
  rw [squareBound]
  linarith

end Solvable

/-- **A linear polynomial at an infinite radius** is negative. -/
theorem Contracting.polynomialAbove_neg_of_top {e : Float} (h : u.Contracting)
    (hy : u.y0.isFinite = true) (hzero : (u.z2 == 0) = true) (hnum : IsNumber e)
    (htop : value e = ⊤) : u.polynomialAbove e < 0 := by
  obtain ⟨hgfin, -, -⟩ := h.gapBelow_spec
  have hsquare : u.squareAbove e = 0 := by
    rw [squareAbove, ofProduct, if_pos (by rw [hzero, Bool.true_or])]
    rfl
  -- the linear term is infinite, and both sums with it
  have hinf : u.gapBelow.isFinite = false ∨ e.isFinite = false := .inr (isFinite_eq_false (.inl htop))
  have hgap : value u.gapBelow ≠ 0 := by
    rw [← coe_real hgfin]
    exact_mod_cast h.gapBelow_pos.ne'
  have he : value e ≠ 0 := by
    rw [htop]
    exact EReal.top_ne_zero
  have hgnum := isNumber_of_isFinite hgfin
  obtain ⟨hpoint, hval⟩ := ofProduct_of_infinite hgnum hnum hinf hgap he
  have hdescent : u.descentBelow e = u.gapBelow * e := by
    rw [descentBelow, hpoint]
    rfl
  have hdnum : IsNumber (u.descentBelow e) := hdescent ▸ (mul_infinite hgnum hnum hinf hgap he).1
  have hneg : value (-u.descentBelow e) = ⊥ := by
    rw [value_neg hdnum, hdescent, hval, htop, ← coe_real hgfin,
      EReal.coe_mul_top_of_pos h.gapBelow_pos, EReal.neg_top]
  obtain ⟨hsnum, hsum⟩ := ofSum_hi_eq_bot zero_isNumber (isNumber_neg hdnum)
    (by rw [value_zero]; exact EReal.zero_ne_top) (by rw [hneg]; exact bot_ne_top) (.inr hneg)
  obtain ⟨hpnum, hpolynomial⟩ := ofSum_hi_eq_bot hsnum (isNumber_of_isFinite hy)
    (by rw [hsum]; exact bot_ne_top) (by rw [← coe_real hy]; exact EReal.coe_ne_top _) (.inl hsum)
  rw [polynomialAbove, hsquare]
  exact lt_iff.mpr ⟨hpnum, zero_isNumber, by rw [hpolynomial, value_zero]; exact EReal.bot_lt_zero⟩

/-- **A radius between roots that are apart** passes the test, unless its square overflows or the
polynomial is nearly an underflow. -/
theorem Solvable.polynomialAbove_midRadius_neg (h : u.Solvable) (ha : u.Apart)
    (hlt : u.smallRoot < u.largeRoot)
    (hsquare : (u.z2 == 0) = true ∨
      (point (midRadius u.smallRoot u.largeRoot) ^ (2 : ℕ)).hi.isFinite = true)
    (hy : u.largeRoot.isFinite = true ∨ (2 : ℝ) ^ (-1070 : ℤ) ≤ real u.y0) :
    u.polynomialAbove (midRadius u.smallRoot u.largeRoot) < 0 := by
  have he0 := h.midRadius_nonneg hlt
  rw [point_square he0, mk_hi] at hsquare
  rcases Bool.eq_false_or_eq_true u.largeRoot.isFinite with hfin | hinf
  · have hZ : 0 < real u.z2 := by
      refine lt_of_le_of_ne h.z2_spec.2 fun hzero => ?_
      rw [h.largeRoot_of_zero hzero.symm] at hfin
      exact absurd hfin (by decide +kernel)
    exact h.polynomialAbove_neg_of_le h.y0_spec.1 h.z2_spec.1 he0 (h.midRadius_finite hlt hfin).1
      hsquare (h.room_of_vertex ha hZ (h.midRadius_error (h.discriminant_nonneg ha).1 hlt hfin hZ
        (h.vertex_spec ha hZ).2.2.1))
  · obtain ⟨hdef, hnum, hval⟩ := h.midRadius_infinite hlt hinf
    rw [hdef] at he0 hsquare ⊢
    rcases Bool.eq_false_or_eq_true (2 * u.smallRoot).isFinite with hefin | heinf
    · have hreal : real (2 * u.smallRoot) = 2 * real u.smallRoot :=
        (clamp_eq_coe (hval.symm.trans (coe_real hefin).symm)).symm
      refine h.polynomialAbove_neg_of_le h.y0_spec.1 h.z2_spec.1 he0 hefin hsquare
        (h.room_of_infinite ha hlt hinf hreal ?_ ?_)
      · exact hsquare.imp h.z2_beq_zero_iff.mp fun hp => real_lt_of_powerAbove he0 hefin hp
      · rw [← margin_underflow]
        exact hy.resolve_left (by simp [hinf])
    · have htop := hnum.value_eq_top (nonneg_spec he0).2 heinf
      refine h.polynomialAbove_neg_of_top h.y0_spec.1 (hsquare.resolve_right fun hp => ?_) hnum htop
      exact EReal.coe_ne_top _ ((coe_real hp).trans (powerAbove_of_top htop hnum))

/-! ## Better bounds -/

/-- **Clearly better bounds**: the product of `z2` and `y0`, relative to the square of the slope, drops
by a margin, and `z2` is not so large that the square of a radius underflows. -/
def ClearlyBetter (u' u : Bounds Float) : Prop :=
  real u'.z2 * real u'.y0 * u.slope ^ 2
      ≤ (1 - (2 : ℝ) ^ (-46 : ℤ)) * (real u.z2 * real u.y0 * u'.slope ^ 2) ∧
    (2 : ℝ) ^ (-1022 : ℤ) * real u'.z2 ^ 2 ≤ u'.slope ^ 2

/-- **Where the test succeeds** the exact roots are real. -/
theorem Solvable.discriminant_of_neg (h : u.Solvable) (hlt : u.smallRoot < u.largeRoot)
    (hneg : u.polynomialAbove (midRadius u.smallRoot u.largeRoot) < 0) :
    4 * real u.z2 * real u.y0 ≤ u.slope ^ 2 := by
  have he0 := h.midRadius_nonneg hlt
  obtain ⟨-, hfinite⟩ := h.midRadius_pos hlt hneg
  generalize midRadius u.smallRoot u.largeRoot = e at *
  have hZ0 := h.z2_spec.2
  rcases Bool.eq_false_or_eq_true e.isFinite with hfin | hinf
  · -- the exact polynomial is not positive at the radius
    have hle := (h.polynomialAbove_neg_iff he0 hfin).mp hneg
    have hpower := (powerAbove_spec (isNumber_of_isFinite hfin) (real_nonneg he0 hfin)
      (coe_real hfin).le 2).2
    have hsquare := (h.squareAbove_spec he0).2.1
    have hnext : value u.y0 ≤ value (nextUp u.y0) := le_nextUp (isNumber_of_isFinite h.y0_spec.1)
    have hZ : (0 : EReal) ≤ value u.z2 := (nonneg_spec h.z2_nonneg).2
    have hterms := (add_le_add ((mul_le_mul_of_nonneg_left hpower hZ).trans hsquare) hnext).trans hle
    rw [← coe_real h.z2_spec.1, ← coe_real h.y0_spec.1, ← EReal.coe_mul, ← EReal.coe_add,
      EReal.coe_le_coe_iff] at hterms
    have hslope : real (u.descentBelow e) ≤ u.slope * real e :=
      (h.descentBelow_spec he0 hfin).2.trans
        (mul_le_mul_of_nonneg_right h.gapBelow_spec.2.2 (real_nonneg he0 hfin))
    have hpolynomial : real u.z2 * real e ^ 2 + real u.y0 ≤ u.slope * real e := hterms.trans hslope
    nlinarith [sq_nonneg (2 * real u.z2 * real e - u.slope)]
  · -- only a linear polynomial passes at an infinite radius
    have hlinear : (u.z2 == 0) = true := by
      by_contra hne
      exact Bool.false_ne_true (hinf.symm.trans (hfinite.mpr fun hboth => hne hboth.1))
    rw [h.z2_beq_zero_iff.mp hlinear, mul_zero, zero_mul]
    exact sq_nonneg _

/-- **Clearly better bounds than those of a certificate** have roots that are apart. -/
theorem ClearlyBetter.apart (hb : u'.ClearlyBetter u) (h : u.Solvable)
    (hD : 4 * real u.z2 * real u.y0 ≤ u.slope ^ 2) : u'.Apart := by
  obtain ⟨hproduct, hunderflow⟩ := hb
  have hslope : 0 < u.slope ^ 2 := pow_pos h.slope_spec.2.1 2
  have hmargin : (2 : ℝ) ^ (-46 : ℤ) = 2 * (2 : ℝ) ^ (-47 : ℤ) := by norm_num
  have hsplit : (2 : ℝ) ^ (-1070 : ℤ) = (2 : ℝ) ^ (-47 : ℤ) / 2 * (2 : ℝ) ^ (-1022 : ℤ) := by
    rw [show (-1070 : ℤ) = -47 + -1 + -1022 by norm_num, zpow_add₀ (by norm_num),
      zpow_add₀ (by norm_num)]
    ring
  rw [Apart, hsplit]
  rw [hmargin] at hproduct
  have hκ : 0 < (2 : ℝ) ^ (-47 : ℤ) := zpow_two_pos _
  have hκ1 : (2 : ℝ) ^ (-47 : ℤ) ≤ 1 / 2 := by norm_num
  generalize (2 : ℝ) ^ (-47 : ℤ) = κ at *
  generalize (2 : ℝ) ^ (-1022 : ℤ) = ν at *
  have hterm : 4 * real u'.z2 * real u'.y0 ≤ (1 - 2 * κ) * u'.slope ^ 2 := by
    refine le_of_mul_le_mul_right ?_ hslope
    have hD' := mul_le_mul_of_nonneg_left hD (mul_nonneg (by linarith : 0 ≤ 1 - 2 * κ)
      (sq_nonneg u'.slope))
    linarith
  have hν := mul_le_mul_of_nonneg_left hunderflow (by linarith : 0 ≤ κ / 2)
  have hκ0 : 0 ≤ κ * u'.slope ^ 2 := by positivity
  linarith

end Bounds

/-- **Better bounds at the midpoint** have their roots on the outer sides, and no obstacle but the test
at the new radius. It is passed when the roots are apart, or the bounds clearly better, as long as
neither the square of the radius overflows nor, below an infinite root, `y0` is nearly an underflow. -/
theorem certify_midpoint_better (hb : u'.Better u) (h : u.certifyExact = .ok report)
    (hc : report.isCertified = true) :
    ∃ report' r₁ r₂ r₁' r₂', u'.certifyExact = .ok report' ∧
      report.roots = some (r₁, r₂) ∧ report'.roots = some (r₁', r₂') ∧
      r₁' ≤ r₁ ∧ r₁ < r₂ ∧ r₂ ≤ r₂' ∧ report'.testedAt = some (.point (midRadius r₁' r₂')) ∧
      (report'.verdict = .certified ∨ report'.verdict = .notCertified .notNegative) ∧
      (u'.Apart ∨ u'.ClearlyBetter u →
        (u'.z2 == 0) = true ∨ (Interval.point (midRadius r₁' r₂') ^ (2 : ℕ)).hi.isFinite = true →
        r₂'.isFinite = true ∨ (2 : ℝ) ^ (-1070 : ℤ) ≤ real u'.y0 →
        report'.verdict = .certified) := by
  obtain ⟨hs, hlt, radii, v, htest, hv, hroots, -⟩ := hb.ofNorms.of_isCertified h hc
  cases htest
  have hs' := hs.better hb
  have hlt' := hs.room_better hb hlt
  have hnorms : u'.lift.OfNorms := Bounds.ofNorms_lift hb.y0_nonneg hb.z0_nonneg hb.z2_nonneg
  obtain ⟨enclosure, -, hreport⟩ := hnorms.certify_tested hs' hlt' (w := .midpoint) rfl
  refine ⟨_, _, _, _, _, hreport, hroots, rfl, hs.smallRoot_better hb, hlt, hs.largeRoot_better hb,
    rfl, ?_, ?_⟩
  · change Bounds.verdictOn _ = _ ∨ Bounds.verdictOn _ = _
    unfold Bounds.verdictOn
    split_ifs
    · exact .inl rfl
    · exact .inr rfl
  · intro hmargin hsquare hy
    have hapart : u'.Apart :=
      hmargin.elim id fun hclear => hclear.apart hs (hs.discriminant_of_neg hlt hv)
    exact if_pos (hs'.polynomialAbove_midRadius_neg hapart hlt' hsquare hy)

/-- The bounds `0.125`, `0.25` and `1` of a certificate, with `z0` left out and `z2` halved. -/
theorem certify_midpoint_better_apart :
    ∃ report report', (Bounds.mk 0.125 0.25 1).certifyExact = .ok report ∧
      report.isCertified = true ∧ (Bounds.mk 0.125 0 0.5).certifyExact = .ok report' ∧
      report'.verdict = .certified := by
  have hcertified : (Bounds.mk 0.125 0.25 1).certifyExact.toOption.map Report.isCertified
      = some true := by decide +kernel
  obtain ⟨report, h, hc⟩ := exists_ok_of_map hcertified
  have hbetter : (Bounds.mk 0.125 0 0.5 : Bounds Float).Better ⟨0.125, 0.25, 1⟩ := by decide +kernel
  obtain ⟨report', r₁, r₂, r₁', r₂', h', -, hroots, -, -, -, -, -, hverdict⟩ :=
    certify_midpoint_better hbetter h hc
  have hfacts : (Bounds.mk 0.125 0 0.5).certifyExact.toOption.map (fun report =>
      report.roots.map fun p => ((Interval.point (midRadius p.1 p.2) ^ (2 : ℕ)).hi.isFinite,
        p.2.isFinite)) = some (some (true, true)) := by decide +kernel
  rw [h'] at hfacts
  simp only [Except.toOption, Option.map_some, hroots, Option.some.injEq, Prod.mk.injEq] at hfacts
  have hapart : (Bounds.mk 0.125 0 0.5).Apart := by
    have heighth := (power_spec (x := 0.125) (w := 0x3FC0000000000000) (e := -3) (by decide +kernel)
      (by decide) (by decide) (by decide)).2
    have hunderflow : (2 : ℝ) ^ (-1070 : ℤ) ≤ (2 : ℝ) ^ (-3 : ℤ) := zpow_two_le (by norm_num)
    have hmargin : (2 : ℝ) ^ (-47 : ℤ) ≤ (2 : ℝ) ^ (-3 : ℤ) := zpow_two_le (by norm_num)
    rw [Bounds.Apart, Bounds.slope, heighth, half_spec.2, real_zero]
    rw [show (2 : ℝ) ^ (-3 : ℤ) = 1 / 8 by norm_num] at *
    generalize (2 : ℝ) ^ (-1070 : ℤ) = ν at *
    generalize (2 : ℝ) ^ (-47 : ℤ) = κ at *
    linarith
  exact ⟨report, report', h, hc, h', hverdict (.inl hapart) (.inr hfacts.1) (.inl hfacts.2)⟩

/-- **The certificate at the midpoint is lost** under better bounds. -/
def Bounds.LosesMidpoint (u u' : Bounds Float) : Prop :=
  u'.Better u ∧ 0 < u'.y0 ∧ u.certifyExact.toOption.map Report.isCertified = some true ∧
    u'.certifyExact.toOption.map Report.isCertified = some false

instance : Decidable (u.LosesMidpoint u') :=
  inferInstanceAs (Decidable (_ ∧ _))

theorem certify_midpoint_loses :
    -- near a double root: `y0` is the float before `1 / 8`, and `z2` falls to the float before `2`
    Bounds.LosesMidpoint ⟨.ofBits 0x3FBFFFFFFFFFFFFF, 0, 2⟩
      ⟨.ofBits 0x3FBFFFFFFFFFFFFF, 0, .ofBits 0x3FFFFFFFFFFFFFFF⟩ ∧
    -- the square of the radius overflows: `z2` falls to `2 ^ -600`
    Bounds.LosesMidpoint ⟨0.125, 0, 1⟩ ⟨0.125, 0, .ofBits 0x1A70000000000000⟩ ∧
    -- the square of the radius underflows: `y0` is `2 ^ -539`, and `z2` falls to `1.5 * 2 ^ 535`
    Bounds.LosesMidpoint ⟨.ofBits 0x1E40000000000000, 0, .ofBits 0x616C000000000000⟩
      ⟨.ofBits 0x1E40000000000000, 0, .ofBits 0x6168000000000000⟩ ∧
    -- below an infinite root, `y0` falls to the least float
    Bounds.LosesMidpoint ⟨1, 0, 0⟩ ⟨.ofBits 1, 0, 0⟩ := by
  decide +kernel

end CertifiedZeros
