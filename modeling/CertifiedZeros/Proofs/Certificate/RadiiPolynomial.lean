import CertifiedZeros.Certificate.Basic
import CertifiedZeros.Proofs.Interval.Power

/-! # The radii polynomial in exact arithmetic

The bounds of a certificate are intervals, and stand for all reals `y`, `z`, `Z` in them that are
bounds of norms. The polynomial of these reals is compared with its interval computation:

* **`polynomialAt_hi`** — a negative upper end means a negative value of the polynomial. This does
  not depend on lost errors: a float is at most the rounded sum if it is at most the exact one.
* **`polynomialAt_lo`**, **`le_polynomialAt_hi`** — the enclosure of the value; from above, where the one
  difference whose error can be lost keeps it (`Bounds.lossAt`). -/

namespace CertifiedZeros

open Binary64 CertifiedZeros.Interval

/-! ## The polynomial -/

/-- **The radii polynomial** of the real bounds `y`, `z`, `Z` at the radius `r`. -/
noncomputable def radiiPolynomial (y z Z r : ℝ) : ℝ :=
  Z * r ^ 2 - (1 - z) * r + y

section

variable {y z Z r : ℝ}

/-- **A negative value makes the radius positive and the derivative contract.** -/
theorem pos_of_radiiPolynomial_neg (hy : 0 ≤ y) (hZ : 0 ≤ Z) (hz : z < 1)
    (h : radiiPolynomial y z Z r < 0) : 0 < r ∧ z + Z * r < 1 := by
  unfold radiiPolynomial at h
  have hpos : 0 < (1 - z) * r := by nlinarith [mul_nonneg hZ (sq_nonneg r)]
  have hr : 0 < r := pos_of_mul_pos_right hpos (by linarith)
  refine ⟨hr, ?_⟩
  by_contra hge
  nlinarith [mul_nonneg hr.le (sub_nonneg.mpr (not_lt.mp hge))]

/-- **The polynomial is convex**: negative at two radii, it is negative between them. -/
theorem radiiPolynomial_neg_of_between {lo hi : ℝ} (hZ : 0 ≤ Z) (hlo : lo ≤ r) (hhi : r ≤ hi)
    (hplo : radiiPolynomial y z Z lo < 0) (hphi : radiiPolynomial y z Z hi < 0) :
    radiiPolynomial y z Z r < 0 := by
  rcases hlo.eq_or_lt with rfl | hlt
  · exact hplo
  have hchord : (hi - lo) * radiiPolynomial y z Z r = (hi - r) * radiiPolynomial y z Z lo
      + (r - lo) * radiiPolynomial y z Z hi - Z * ((hi - lo) * ((hi - r) * (r - lo))) := by
    unfold radiiPolynomial
    ring
  have hconvex : 0 ≤ Z * ((hi - lo) * ((hi - r) * (r - lo))) := by
    refine mul_nonneg hZ (mul_nonneg ?_ (mul_nonneg ?_ ?_)) <;> linarith
  have hneg : (hi - lo) * radiiPolynomial y z Z r < 0 := by
    rw [hchord]
    nlinarith [mul_nonneg (sub_nonneg.mpr hhi) (neg_nonneg.mpr hplo.le),
      mul_pos (sub_pos.mpr hlt) (neg_pos.mpr hphi)]
  exact neg_of_mul_neg_right hneg (by linarith)

/-- At a positive radius the polynomial grows with each of its bounds. -/
theorem radiiPolynomial_mono {y' z' Z' : ℝ} (hr : 0 ≤ r) (hy : y ≤ y') (hz : z ≤ z') (hZ : Z ≤ Z') :
    radiiPolynomial y z Z r ≤ radiiPolynomial y' z' Z' r := by
  unfold radiiPolynomial
  nlinarith [mul_le_mul_of_nonneg_right hZ (sq_nonneg r), mul_le_mul_of_nonneg_right hz hr]

end

/-! ## Bounds -/

/-- **The reals that the bounds stand for**: members that can be bounds of norms. -/
def Bounds.Allows (b : Bounds Interval) (y z Z : ℝ) : Prop :=
  y ∈ b.y0 ∧ z ∈ b.z0 ∧ Z ∈ b.z2 ∧ 0 ≤ y ∧ 0 ≤ Z

/-- **Where the enclosure of the polynomial may fail**: the upper end of the difference loses its
rounding error. -/
def Bounds.lossAt (b : Bounds Interval) (r : Float) : Bool :=
  sumBelow (b.z2 * point r ^ (2 : Nat)).hi (-((1 - b.z0) * point r).lo)

/-! ## Sums that keep their errors -/

theorem two_lt_topUnit : 2 < topUnit := by
  have h := zpow_two_lt (show (1 : ℤ) < 971 by norm_num)
  rwa [zpow_one] at h

/-- A sum that begins with one loses nothing. -/
theorem sumAbove_one (a : Float) : sumAbove 1 a = false := by
  by_contra h
  have hneg := (sumAbove_spec ((Bool.not_eq_false _).mp h)).2
  rw [real_one] at hneg
  linarith [topUnit_pos]

theorem sumBelow_one (a : Float) : sumBelow 1 a = false := by
  by_contra h
  have hlarge := (sumBelow_spec ((Bool.not_eq_false _).mp h)).2
  rw [real_one] at hlarge
  linarith [two_lt_topUnit]

/-! ## The enclosure of the polynomial -/

theorem sub_lo (X Y : Interval) : (X - Y).lo = (ofSum X.lo (-Y.hi)).lo := by
  rw [sub_eq_add, add_lo, neg_lo]

theorem sub_hi (X Y : Interval) : (X - Y).hi = (ofSum X.hi (-Y.lo)).hi := by
  rw [sub_eq_add, add_hi, neg_hi]

section

variable {b : Bounds Interval} {y z Z : ℝ} {e : Float}

theorem one_lo : (1 : Interval).lo = 1 := rfl

theorem one_hi : (1 : Interval).hi = 1 := rfl

/-- Differences from one are always enclosed. -/
theorem one_sub_mem {X : Interval} {x : ℝ} (hx : x ∈ X) : 1 - x ∈ 1 - X :=
  sub_mem (by rw [one_lo]; exact sumAbove_one _) (by rw [one_hi]; exact sumBelow_one _) one_mem hx

/-- The two terms of the polynomial are always enclosed. -/
theorem terms_mem (h : b.Allows y z Z) (he : e.isFinite = true) :
    Z * real e ^ 2 ∈ b.z2 * point e ^ (2 : Nat) ∧ (1 - z) * real e ∈ (1 - b.z0) * point e := by
  obtain ⟨-, hz, hZ, -, -⟩ := h
  exact ⟨mul_mem hZ (power_mem (mem_point he) 2), mul_mem (one_sub_mem hz) (mem_point he)⟩

theorem polynomialAt_def (b : Bounds Interval) (e : Float) :
    b.polynomialAt (point e) = b.z2 * point e ^ (2 : Nat) - (1 - b.z0) * point e + b.y0 := rfl

/-- **A negative upper end means a negative value**, even where the error of the difference is
lost: the difference is at least as large as every float that is not above the exact one, and so is
the sum. -/
theorem polynomialAt_hi (h : b.Allows y z Z) (he : e.isFinite = true) :
    IsNumber (b.polynomialAt (point e)).hi ∧
      (value (b.polynomialAt (point e)).hi < 0 →
        b.y0.hi.isFinite = true ∧ radiiPolynomial y z Z (real e) < 0) := by
  obtain ⟨⟨-, hMh, -, hM⟩, ⟨hBl, -, hB, -⟩⟩ := terms_mem h he
  obtain ⟨⟨-, hyh, -, hy⟩, -, -, hy0, -⟩ := h
  have hBneg : ((-((1 - z) * real e) : ℝ) : EReal) ≤ value (-((1 - b.z0) * point e).lo) := by
    rw [value_neg hBl, EReal.coe_neg]
    exact EReal.neg_le_neg_iff.mpr hB
  have hMbot := ne_bot_of_coe_le hM
  have hBbot := ne_bot_of_coe_le hBneg
  have hybot := ne_bot_of_coe_le hy
  rw [polynomialAt_def, add_hi, sub_hi]
  generalize (b.z2 * point e ^ (2 : Nat)).hi = u at *
  have hBnum := isNumber_neg hBl
  generalize -((1 - b.z0) * point e).lo = v at *
  obtain ⟨hDbot, hD⟩ := le_ofSum_hi hMh hBnum hMbot hBbot
  have hDnum := (ofSum_hi_spec hMh hBnum hMbot hBbot).1
  obtain ⟨-, hP⟩ := le_ofSum_hi hDnum hyh hDbot hybot
  refine ⟨(ofSum_hi_spec hDnum hyh hDbot hybot).1, fun hneg => ?_⟩
  have hsum : ¬0 ≤ value (ofSum u v).hi + value b.y0.hi := fun h0 =>
    absurd (hP 0 representable_zero (by rw [abs_zero]; exact limit_pos) h0) (not_le.mpr hneg)
  have hyfin : b.y0.hi.isFinite = true := by
    by_contra hinf
    rcases hyh.value_of_not_isFinite ((Bool.not_eq_true _).mp hinf) with htop | hbot
    · rw [htop, EReal.add_top_of_ne_bot hDbot] at hsum
      exact hsum le_top
    · exact hybot hbot
  refine ⟨hyfin, ?_⟩
  by_contra hp
  rw [not_lt, radiiPolynomial] at hp
  rw [← coe_real hyfin] at hy hsum
  have hyr : y ≤ real b.y0.hi := by exact_mod_cast hy
  -- the upper end of `y0`, turned around, is a float below the exact difference
  have hfloat : ((-real b.y0.hi : ℝ) : EReal) ≤ value u + value v := by
    refine le_trans ?_ (add_le_add hM hBneg)
    rw [← EReal.coe_add, EReal.coe_le_coe_iff]
    linarith
  refine hsum ?_
  have hle := hD _ (representable_real hyfin).neg (by rw [abs_neg]; exact abs_real_lt hyfin) hfloat
  calc (0 : EReal) = ((-real b.y0.hi : ℝ) : EReal) + (real b.y0.hi : ℝ) := by
        rw [← EReal.coe_add, neg_add_cancel, EReal.coe_zero]
    _ ≤ value (ofSum u v).hi + (real b.y0.hi : ℝ) := add_le_add_left hle _

/-- **The lower end lies below a negative value.** -/
theorem polynomialAt_lo (h : b.Allows y z Z) (hz1 : z < 1) (he : e.isFinite = true)
    (hp : radiiPolynomial y z Z (real e) < 0) :
    IsNumber (b.polynomialAt (point e)).lo ∧
      value (b.polynomialAt (point e)).lo ≤ (radiiPolynomial y z Z (real e) : ℝ) := by
  obtain ⟨⟨hMl, -, hM, -⟩, ⟨-, hBh, -, hB⟩⟩ := terms_mem h he
  obtain ⟨⟨hyl, -, hy, -⟩, -, -, hy0, hZ0⟩ := h
  have hterm : 0 < (1 - z) * real e :=
    mul_pos (by linarith) (pos_of_radiiPolynomial_neg hy0 hZ0 hz1 hp).1
  have hBneg : value (-((1 - b.z0) * point e).hi) ≤ ((-((1 - z) * real e) : ℝ) : EReal) := by
    rw [value_neg hBh, EReal.coe_neg]
    exact EReal.neg_le_neg_iff.mpr hB
  rw [polynomialAt_def, add_lo, sub_lo]
  generalize (b.z2 * point e ^ (2 : Nat)).lo = u at *
  have hBnum := isNumber_neg hBh
  generalize -((1 - b.z0) * point e).hi = v at *
  obtain ⟨hDnum, hDspec⟩ := ofSum_lo_spec hMl hBnum (ne_top_of_le_coe hM) (ne_top_of_le_coe hBneg)
  have hD : value (ofSum u v).lo ≤ ((Z * real e ^ 2 - (1 - z) * real e : ℝ) : EReal) := by
    refine (hDspec.mpr (sumAbove_of_nonpos (neg_nonpos.mpr hterm.le) hBneg)).trans ?_
    rw [sub_eq_add_neg, EReal.coe_add]
    exact add_le_add hM hBneg
  obtain ⟨hPnum, hPspec⟩ := ofSum_lo_spec hDnum hyl (ne_top_of_le_coe hD) (ne_top_of_le_coe hy)
  -- a loss would need the largest float as lower end of `y0`, and a difference beyond it
  have hkept : sumAbove (ofSum u v).lo b.y0.lo = false := by
    by_contra hlost
    have hlost' := (Bool.not_eq_false _).mp hlost
    obtain ⟨hDfin, hyfin⟩ := isFinite_of_sumAbove hlost'
    have hymax := (sumAbove_spec hlost').1
    rw [← coe_real hDfin, EReal.coe_le_coe_iff] at hD
    rw [← coe_real hyfin, EReal.coe_le_coe_iff, hymax] at hy
    have hDmin := abs_le.mp ((representable_real hDfin).abs_le_of_lt_limit (abs_real_lt hDfin))
    unfold radiiPolynomial at hp
    linarith [hDmin.1]
  refine ⟨hPnum, (hPspec.mpr hkept).trans ?_⟩
  rw [radiiPolynomial, EReal.coe_add]
  exact add_le_add hD hy

/-- **The upper end lies above the value** where no error is lost. -/
theorem le_polynomialAt_hi (h : b.Allows y z Z) (he : e.isFinite = true)
    (hkept : b.lossAt e = false) :
    ((radiiPolynomial y z Z (real e) : ℝ) : EReal) ≤ value (b.polynomialAt (point e)).hi := by
  obtain ⟨⟨-, hMh, -, hM⟩, ⟨hBl, -, hB, -⟩⟩ := terms_mem h he
  obtain ⟨⟨-, hyh, -, hy⟩, -, -, hy0, -⟩ := h
  have hBneg : ((-((1 - z) * real e) : ℝ) : EReal) ≤ value (-((1 - b.z0) * point e).lo) := by
    rw [value_neg hBl, EReal.coe_neg]
    exact EReal.neg_le_neg_iff.mpr hB
  rw [polynomialAt_def, add_hi, sub_hi]
  unfold Bounds.lossAt at hkept
  generalize (b.z2 * point e ^ (2 : Nat)).hi = u at *
  have hBnum := isNumber_neg hBl
  generalize -((1 - b.z0) * point e).lo = v at *
  obtain ⟨hDnum, hDspec⟩ := ofSum_hi_spec hMh hBnum (ne_bot_of_coe_le hM) (ne_bot_of_coe_le hBneg)
  have hD : ((Z * real e ^ 2 - (1 - z) * real e : ℝ) : EReal) ≤ value (ofSum u v).hi := by
    refine le_trans ?_ (hDspec.mpr hkept)
    rw [sub_eq_add_neg, EReal.coe_add]
    exact add_le_add hM hBneg
  obtain ⟨-, hPspec⟩ := ofSum_hi_spec hDnum hyh (ne_bot_of_coe_le hD) (ne_bot_of_coe_le hy)
  refine le_trans ?_ (hPspec.mpr (sumBelow_of_nonneg hy0 hy))
  rw [radiiPolynomial, EReal.coe_add]
  exact add_le_add hD hy

/-- **Where an error is lost the upper ends of the bounds are among the reals they stand for.** -/
theorem allows_hi (h : b.Allows y z Z) (hz1 : value b.z0.hi < 1) (he : e.isFinite = true)
    (hr : 0 < real e) (hyfin : b.y0.hi.isFinite = true) (hlost : b.lossAt e = true) :
    y ≤ real b.y0.hi ∧ z ≤ real b.z0.hi ∧ Z ≤ real b.z2.hi ∧
      b.Allows (real b.y0.hi) (real b.z0.hi) (real b.z2.hi) := by
  have hupper : ∀ {X : Interval} {x : ℝ}, x ∈ X → X.hi.isFinite = true →
      x ≤ real X.hi ∧ real X.hi ∈ X := fun hx hfin =>
    ⟨by have hle := hx.2.2.2; rwa [← coe_real hfin, EReal.coe_le_coe_iff] at hle,
      hi_mem (le_of_mem hx) hfin⟩
  obtain ⟨hy, hz, hZ, hy0, hZ0⟩ := h
  have hzfin : b.z0.hi.isFinite = true := by
    by_contra hinf
    rcases hz.2.1.value_of_not_isFinite ((Bool.not_eq_true _).mp hinf) with h | h
    · rw [h] at hz1
      exact absurd hz1 (not_lt.mpr le_top)
    · exact ne_bot_of_coe_le hz.2.2.2 h
  -- with an infinite upper end of `z2` the first term would have no largest value
  have hZfin : b.z2.hi.isFinite = true := by
    by_contra hinf
    rcases hZ.2.1.value_of_not_isFinite ((Bool.not_eq_true _).mp hinf) with h | h
    · obtain ⟨hMfin, -⟩ := isFinite_of_sumBelow hlost
      have hsq : 0 < real e ^ 2 := by positivity
      obtain ⟨Z', hZ', hlarge⟩ : ∃ Z' : ℝ, Z ≤ Z' ∧
          real (b.z2 * point e ^ (2 : Nat)).hi < Z' * real e ^ 2 := by
        refine ⟨max Z ((real (b.z2 * point e ^ (2 : Nat)).hi + 1) / real e ^ 2), le_max_left _ _, ?_⟩
        have hle := mul_le_mul_of_nonneg_right
          (le_max_right Z ((real (b.z2 * point e ^ (2 : Nat)).hi + 1) / real e ^ 2)) hsq.le
        rw [div_mul_cancel₀ _ hsq.ne'] at hle
        linarith
      have hmem : Z' ∈ b.z2 :=
        ⟨hZ.1, hZ.2.1, hZ.2.2.1.trans (EReal.coe_le_coe_iff.mpr hZ'), by rw [h]; exact le_top⟩
      have hterm := (terms_mem ⟨hy, hz, hmem, hy0, hZ0.trans hZ'⟩ he).1.2.2.2
      rw [← coe_real hMfin, EReal.coe_le_coe_iff] at hterm
      exact absurd hterm (not_le.mpr hlarge)
    · exact ne_bot_of_coe_le hZ.2.2.2 h
  obtain ⟨hyle, hymem⟩ := hupper hy hyfin
  obtain ⟨hzle, hzmem⟩ := hupper hz hzfin
  obtain ⟨hZle, hZmem⟩ := hupper hZ hZfin
  exact ⟨hyle, hzle, hZle, hymem, hzmem, hZmem, hy0.trans hyle, hZ0.trans hZle⟩

end

end CertifiedZeros
