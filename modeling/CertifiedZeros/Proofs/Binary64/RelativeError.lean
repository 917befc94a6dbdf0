import CertifiedZeros.Proofs.Binary64.Neighbours

/-! # Relative errors

The error of one rounding is small relative to the exact result, or absolutely small:

* **`unitRoundoff`**, **`underflowError`** — the two bounds, `2 ^ -53` and `2 ^ -1075`.
* **`abs_sub_rounded_le_relative`** — the error of any rounding.
* **`abs_rounded_sub_le`** — what a rounding adds to an error that is there already.
* **`nextUp_le_relative`** — the next float is not far away, either.
* **`exists_representable_below`**, **`exists_representable_above`** — representable numbers close to a
  number, beyond which it is not rounded.
* **`Representable.half`** — halving is exact above the subnormal numbers.
* **`exists_float`** — the floats are the representable numbers below the limit.
* **`sub_le_of_rounded_eq`** — how far apart numbers are that are rounded alike.
* **`clamp_rounded_le_nextUp_nextUp`** — numbers that are close are rounded to floats that are at most
  two steps apart. -/

namespace CertifiedZeros.Binary64

open Float.Model.UnpackedFloat

/-- **The largest relative error** of rounding a normal number. -/
noncomputable def unitRoundoff : ℝ := (2 : ℝ) ^ (-53 : ℤ)

/-- **The largest absolute error** of rounding a subnormal number. -/
noncomputable def underflowError : ℝ := (2 : ℝ) ^ (-1075 : ℤ)

theorem unitRoundoff_pos : 0 < unitRoundoff := zpow_two_pos _

theorem underflowError_pos : 0 < underflowError := zpow_two_pos _

theorem unitRoundoff_le : unitRoundoff ≤ 1 / 2 ^ 20 := by
  rw [unitRoundoff]
  norm_num

/-- Roundings up to a factor do not shrink. -/
theorem one_le_pow_roundoff (n : ℕ) : 1 ≤ (1 + unitRoundoff) ^ n :=
  one_le_pow₀ (le_add_of_nonneg_right unitRoundoff_pos.le)

/-- A roundoff of a number is small against it. -/
theorem roundoff_mul_le {x : ℝ} (h0 : 0 ≤ x) :
    0 ≤ unitRoundoff * x ∧ unitRoundoff * x ≤ x / 2 ^ 20 := by
  refine ⟨mul_nonneg unitRoundoff_pos.le h0, ?_⟩
  rw [div_eq_inv_mul, ← one_div]
  exact mul_le_mul_of_nonneg_right unitRoundoff_le h0

theorem underflowError_le_pow : underflowError ≤ unitRoundoff ^ 6 := by
  rw [underflowError, unitRoundoff, ← zpow_natCast, ← zpow_mul]
  exact zpow_two_le (by norm_num)

/-- Half the least unit. -/
theorem half_least_eq : (2 : ℝ) ^ (-1074 : ℤ) / 2 = underflowError := by
  rw [underflowError, show (-1074 : ℤ) = -1075 + (1 : ℕ) by norm_num, zpow_two_add]
  ring

/-- Half a unit, relative to the least number with that unit. -/
theorem half_unit_eq (e : ℤ) : (2 : ℝ) ^ e / 2 = (2 : ℝ) ^ (e + 52) * unitRoundoff := by
  rw [unitRoundoff, ← zpow_add₀ (by norm_num), show e + 52 + -53 = e - 1 by ring,
    zpow_sub_one₀ (by norm_num), div_eq_mul_inv]

variable {x : ℝ}

/-- The last place of a number is small against it, or the lowest of all. -/
theorem unit_le_relative (x : ℝ) :
    (2 : ℝ) ^ unitExponent x / 2 ≤ |x| * unitRoundoff ∨
      unitExponent x = -1074 ∧ (2 : ℝ) ^ unitExponent x / 2 = underflowError := by
  by_cases h : unitExponent x = -1074
  · right
    rw [h]
    exact ⟨rfl, half_least_eq⟩
  · left
    rw [half_unit_eq]
    exact mul_le_mul_of_nonneg_right (zpow_le_abs_of_normal h) unitRoundoff_pos.le

/-- **The error of rounding** is relatively or absolutely small. -/
theorem abs_sub_rounded_le_relative (x : ℝ) :
    |x - rounded x| ≤ |x| * unitRoundoff + underflowError := by
  have herr := abs_sub_rounded_le x
  have hrel := mul_nonneg (abs_nonneg x) unitRoundoff_pos.le
  have habs := underflowError_pos
  rcases unit_le_relative x with h | ⟨-, h⟩ <;> linarith

/-- **A rounding adds to an error** a multiple of the roundoff. -/
theorem abs_rounded_sub_le {r t c M : ℝ} (herr : |r - t| ≤ c) (hM : |r| ≤ M) :
    |rounded r - t| ≤ c + (M * unitRoundoff + underflowError) := by
  have hround := abs_sub_rounded_le_relative r
  have hrel := mul_le_mul_of_nonneg_right hM unitRoundoff_pos.le
  calc |rounded r - t| = |(r - t) - (r - rounded r)| := by ring_nf
    _ ≤ |r - t| + |r - rounded r| := abs_sub _ _
    _ ≤ c + (M * unitRoundoff + underflowError) := by linarith

/-- **Halving is exact** above the subnormal numbers. -/
theorem Representable.half (hx : Representable x) (h : (2 : ℝ) ^ (-1021 : ℤ) ≤ |x|) :
    Representable (1 / 2 * x) := by
  have hexp : -1073 ≤ unitExponent x := le_unitExponent_of_le (by norm_num at h ⊢; exact h)
  have hpow : (2 : ℝ) ^ unitExponent x = 2 * (2 : ℝ) ^ (unitExponent x - 1) := by
    rw [zpow_sub_one₀ (by norm_num)]
    ring
  obtain ⟨m, hm⟩ := hx
  refine representable_of_onGrid (e := unitExponent x - 1) (by omega) ⟨m, ?_⟩ ?_
  · rw [hpow] at hm
    linear_combination 1 / 2 * hm
  · have hlt := abs_lt_zpow x
    have htop : (2 : ℝ) ^ (unitExponent x + 53) = 2 * (2 : ℝ) ^ (unitExponent x - 1 + 53) := by
      rw [show unitExponent x + 53 = unitExponent x - 1 + 53 + (1 : ℕ) by push_cast; ring,
        zpow_two_add]
      ring
    rw [htop] at hlt
    rw [abs_mul, abs_of_pos (by norm_num : (0 : ℝ) < 1 / 2)]
    linarith

/-- **The next float** is at most two roundoffs away, short of an overflow. -/
theorem nextUp_le_relative {a : Float} (ha : a.isFinite = true) (h0 : 0 ≤ real a)
    (hlt : real a + 2 * (real a * unitRoundoff + underflowError) < limit) :
    value (nextUp a)
      ≤ ((real a + 2 * (real a * unitRoundoff + underflowError) : ℝ) : EReal) := by
  have hrep := representable_real ha
  have hunit := zpow_two_pos (unitExponent (real a))
  have hstep : (2 : ℝ) ^ unitExponent (real a) ≤ 2 * (real a * unitRoundoff + underflowError) := by
    have hrel := mul_nonneg h0 unitRoundoff_pos.le
    have habs := underflowError_pos
    rcases unit_le_relative (real a) with h | ⟨-, h⟩
    · rw [abs_of_nonneg h0] at h
      linarith
    · linarith
  -- one last place further on there is a representable number
  have hnext : Representable (real a + (2 : ℝ) ^ unitExponent (real a)) := by
    refine representable_of_onGrid (le_unitExponent (real a)) (hrep.add ⟨1, by simp⟩) ?_
    have hle := hrep.abs_le
    rw [abs_of_nonneg h0] at hle
    rw [abs_of_pos (by linarith)]
    linarith
  have hclamp : clamp (real a + (2 : ℝ) ^ unitExponent (real a))
      = ((real a + (2 : ℝ) ^ unitExponent (real a) : ℝ) : EReal) :=
    clamp_of_lt (by rw [abs_of_pos (by linarith)]; linarith)
  have hle := nextUp_le_of_lt (isNumber_of_isFinite ha) hnext
    (by rw [hclamp, ← coe_real ha, EReal.coe_lt_coe_iff]; linarith)
  rw [hclamp] at hle
  exact hle.trans (EReal.coe_le_coe_iff.mpr (by linarith))

/-- **Close below a number** there is a representable one, below which it is not rounded. -/
theorem exists_representable_below (h0 : 0 ≤ x) : ∃ g, Representable g ∧ g ≤ x ∧ g < rounded x ∧
    x * (1 - 4 * unitRoundoff) - 5 * underflowError ≤ g := by
  have hη := underflowError_pos
  have hsmall := unitRoundoff_le
  have hux : 0 ≤ x * unitRoundoff := mul_nonneg h0 unitRoundoff_pos.le
  have huη := mul_le_mul_of_nonneg_left hsmall hη.le
  -- the number that is rounded is closer than the error of its rounding
  set r := x * (1 - 3 * unitRoundoff) - 3 * underflowError with hr
  have habs : |r| ≤ x + 3 * underflowError := by
    rw [abs_le]
    have hxu := mul_le_mul_of_nonneg_left hsmall h0
    constructor <;> linarith
  have hrounded := abs_le.mp (abs_sub_rounded_le_relative r)
  have hrel := mul_le_mul_of_nonneg_right habs unitRoundoff_pos.le
  have hx := abs_le.mp (abs_sub_rounded_le_relative x)
  rw [abs_of_nonneg h0] at hx
  refine ⟨rounded r, representable_rounded r, ?_, ?_, ?_⟩ <;> linarith

/-- **Close above a number** there is a representable one, above which it is not rounded. -/
theorem exists_representable_above (h0 : 0 ≤ x) : ∃ g, Representable g ∧ x ≤ g ∧ rounded x < g ∧
    g ≤ x * (1 + 4 * unitRoundoff) + 5 * underflowError := by
  have hη := underflowError_pos
  have hsmall := unitRoundoff_le
  have hux : 0 ≤ x * unitRoundoff := mul_nonneg h0 unitRoundoff_pos.le
  have huη := mul_le_mul_of_nonneg_left hsmall hη.le
  have huux := mul_le_mul_of_nonneg_left hsmall hux
  have huη0 : 0 ≤ underflowError * unitRoundoff := mul_nonneg hη.le unitRoundoff_pos.le
  set r := x * (1 + 5 / 2 * unitRoundoff) + 5 / 2 * underflowError with hr
  have hr0 : 0 ≤ r := by linarith
  have hru : r * unitRoundoff = x * unitRoundoff + 5 / 2 * (x * unitRoundoff * unitRoundoff)
      + 5 / 2 * (underflowError * unitRoundoff) := by
    rw [hr]
    ring
  have hrounded := abs_le.mp (abs_sub_rounded_le_relative r)
  rw [abs_of_nonneg hr0, hru] at hrounded
  have hx := abs_le.mp (abs_sub_rounded_le_relative x)
  rw [abs_of_nonneg h0] at hx
  refine ⟨rounded r, representable_rounded r, ?_, ?_, ?_⟩ <;> linarith

/-- **Every representable number below the limit is a float.** -/
theorem exists_float (hx : Representable x) (hlt : |x| < limit) :
    ∃ a : Float, a.isFinite = true ∧ real a = x := by
  have hword : ∀ {s : Sign} {y : ℝ}, Representable y → 0 ≤ y → y < limit →
      ∃ a : Float, a.isFinite = true ∧ real a = signFactor s * y := by
    intro s y hy h0 hylt
    obtain ⟨w, rfl⟩ := exists_magnitude hy h0
    have hw : w ≤ infinityWord := by
      by_contra hgt
      have hle := magnitude_strictMono.monotone (not_le.mp hgt).le
      rw [magnitude_infinityWord] at hle
      exact absurd hylt (not_lt.mpr hle)
    obtain ⟨hnum, hval⟩ := value_ofModel_pack s hw
    have habs : |signFactor s * magnitude w| < limit := by
      cases s <;> simpa [signFactor, abs_of_nonneg h0] using hylt
    rw [clamp_of_lt habs] at hval
    exact ⟨_, isFinite_of_value hnum hval, real_eq_of_value hval⟩
  obtain ⟨hlow, hhigh⟩ := abs_lt.mp hlt
  rcases le_total 0 x with h | h
  · obtain ⟨a, ha, hreal⟩ := hword (s := .positive) hx h hhigh
    exact ⟨a, ha, by rw [hreal, signFactor, one_mul]⟩
  · obtain ⟨a, ha, hreal⟩ := hword (s := .negative) hx.neg (by linarith) (by linarith)
    exact ⟨a, ha, by rw [hreal, signFactor]; ring⟩

/-! ## Numbers that are rounded alike -/

variable {y : ℝ}

/-- The last place of a normal number is small against it. -/
theorem unit_le_of_normal (h : (2 : ℝ) ^ (-1022 : ℤ) ≤ |x|) :
    (2 : ℝ) ^ unitExponent x ≤ 2 * (|x| * unitRoundoff) := by
  have hfull : (2 : ℝ) ^ (unitExponent x + 52) ≤ |x| := by
    by_cases hlow : unitExponent x = -1074
    · rw [hlow]
      exact h
    · exact zpow_le_abs_of_normal hlow
  calc (2 : ℝ) ^ unitExponent x = 2 * ((2 : ℝ) ^ (unitExponent x + 52) * unitRoundoff) := by
        rw [unitRoundoff, ← zpow_add₀ (by norm_num), ← zpow_one_add₀ (by norm_num)]
        congr 1
        ring
    _ ≤ 2 * (|x| * unitRoundoff) := by
        have hpos := unitRoundoff_pos
        gcongr

/-- **Normal numbers that are rounded alike** are at most two roundoffs apart. -/
theorem sub_le_of_rounded_eq (h0 : (2 : ℝ) ^ (-1022 : ℤ) ≤ x) (hle : x ≤ y)
    (h : rounded x = rounded y) : y - x ≤ 2 * (x * unitRoundoff) := by
  have hpos : 0 < x := (zpow_two_pos _).trans_le h0
  have hx := abs_le.mp (abs_sub_rounded_le x)
  have hy := abs_le.mp (abs_sub_rounded_le y)
  have hunit := unit_le_of_normal (h0.trans_eq (abs_of_pos hpos).symm)
  rw [abs_of_pos hpos] at hunit
  have hmono : unitExponent x ≤ unitExponent y :=
    unitExponent_mono (by rwa [abs_of_pos hpos, abs_of_pos (hpos.trans_le hle)])
  rcases hmono.eq_or_lt with heq | hlt
  · rw [← heq] at hy
    linarith
  · -- a power of two lies between them, to which both are rounded
    have hlow := le_unitExponent x
    have hbelow : rounded x ≤ (2 : ℝ) ^ (unitExponent x + 53) :=
      rounded_le (representable_zpow (by omega)) ((le_abs_self x).trans (abs_lt_zpow x).le)
    have habove : (2 : ℝ) ^ (unitExponent y + 52) ≤ rounded x := by
      rw [h]
      refine le_rounded (representable_zpow (by omega)) ?_
      exact (zpow_le_abs_of_normal (by omega)).trans_eq (abs_of_pos (hpos.trans_le hle))
    have hnext : unitExponent y ≤ unitExponent x + 1 := by
      by_contra hgt
      exact absurd (habove.trans hbelow) (not_le.mpr (zpow_two_lt (by omega)))
    have hdouble : (2 : ℝ) ^ unitExponent y ≤ 2 * (2 : ℝ) ^ unitExponent x := by
      refine (zpow_two_le hnext).trans_eq ?_
      rw [zpow_add_one₀ (by norm_num), mul_comm]
    have hfull : 2 ^ 53 * (2 : ℝ) ^ unitExponent x ≤ rounded x := by
      rw [← zpow_two_add]
      exact (zpow_two_le (by push_cast; omega)).trans habove
    have hone : 2 ^ 53 * unitRoundoff = 1 := by
      rw [unitRoundoff]
      norm_num
    have hsmall := mul_le_mul_of_nonneg_right unitRoundoff_le (zpow_two_pos (unitExponent x)).le
    -- so the exact number, times the roundoff, is nearly a last place
    have hscaled : (2 : ℝ) ^ unitExponent x - unitRoundoff * (2 : ℝ) ^ unitExponent x / 2
        ≤ x * unitRoundoff := by
      calc (2 : ℝ) ^ unitExponent x - unitRoundoff * (2 : ℝ) ^ unitExponent x / 2
          = (2 ^ 53 * (2 : ℝ) ^ unitExponent x - (2 : ℝ) ^ unitExponent x / 2) * unitRoundoff := by
            linear_combination -(2 : ℝ) ^ unitExponent x * hone
        _ ≤ x * unitRoundoff :=
            mul_le_mul_of_nonneg_right (by linarith) unitRoundoff_pos.le
    linarith

/-- A representable number beyond a rounded one is a multiple of the last place of the exact one. -/
theorem onGrid_of_rounded_lt {g : ℝ} (h0 : 0 ≤ x) (hg : Representable g) (h : rounded x < g) :
    OnGrid (unitExponent x) g := by
  by_cases hlow : unitExponent x = -1074
  · rw [hlow]
    exact hg.onGrid_least
  · refine hg.onGrid (le_unitExponent_of_le ?_)
    have hfull := zpow_le_abs_of_normal hlow
    rw [abs_of_nonneg h0] at hfull
    have hlow' := le_unitExponent x
    exact (le_rounded (representable_zpow (by omega)) hfull).trans (h.le.trans (le_abs_self g))

/-- **Numbers less than two last places apart** are rounded to floats that are at most two steps
apart. -/
theorem clamp_rounded_le_nextUp_nextUp {a : Float} (ha : IsNumber a)
    (hval : value a = clamp (rounded x)) (h0 : 0 ≤ x)
    (hlt : y < x + 2 * (2 : ℝ) ^ unitExponent x) :
    clamp (rounded y) ≤ value (nextUp (nextUp a)) := by
  have hnext := isNumber_nextUp ha
  have hlast := isNumber_nextUp hnext
  have hpos : 0 ≤ value a := by
    rw [hval]
    exact clamp_nonneg (le_rounded representable_zero h0)
  -- short of an overflow there are three floats in a row
  by_cases htop : value (nextUp (nextUp a)) = ⊤
  · rw [htop]
    exact le_top
  have hfinite : ∀ {c : Float}, IsNumber c → 0 ≤ value c → value c ≠ ⊤ → c.isFinite = true :=
    fun hc h0 hne => by_contra fun hinf => hne (hc.value_eq_top h0 ((Bool.not_eq_true _).mp hinf))
  have hnextne : value (nextUp a) ≠ ⊤ := fun h => htop (top_le_iff.mp (h ▸ le_nextUp hnext))
  have hane : value a ≠ ⊤ := fun h => hnextne (top_le_iff.mp (h ▸ le_nextUp ha))
  have hfa := hfinite ha hpos hane
  have hfb := hfinite hnext (hpos.trans (le_nextUp ha)) hnextne
  have hfc := hfinite hlast ((hpos.trans (le_nextUp ha)).trans (le_nextUp hnext)) htop
  have hab := lt_nextUp ha hane
  have hbc := lt_nextUp hnext hnextne
  rw [← coe_real hfa, ← coe_real hfb, EReal.coe_lt_coe_iff] at hab
  rw [← coe_real hfb, ← coe_real hfc, EReal.coe_lt_coe_iff] at hbc
  rw [← coe_real hfa] at hval
  have hrounded := clamp_eq_coe hval.symm
  rw [← hrounded] at hab
  -- each of them is a whole number of units above the one before
  have hgrid := onGrid_rounded x
  have hgridb := onGrid_of_rounded_lt h0 (representable_real hfb) hab
  have hgridc := onGrid_of_rounded_lt h0 (representable_real hfc) (hab.trans hbc)
  have hstep := (hgridb.sub hgrid).zpow_le_abs (sub_pos.mpr hab).ne'
  have hstep' := (hgridc.sub hgridb).zpow_le_abs (sub_pos.mpr hbc).ne'
  rw [abs_of_pos (sub_pos.mpr hab)] at hstep
  rw [abs_of_pos (sub_pos.mpr hbc)] at hstep'
  have herr := abs_le.mp (abs_sub_rounded_le x)
  rw [← clamp_rounded_real hfc, rounded_eq (representable_real hfc)]
  refine clamp_mono (not_lt.mp fun hgt => ?_)
  -- a number that is rounded beyond the last one is closer to the float after that
  have hbeyond := lt_of_lt_rounded (representable_real hfc) hgt
  have hgridy := onGrid_of_rounded_lt h0 (representable_rounded y) (hab.trans (hbc.trans hgt))
  have hstep'' := (hgridy.sub hgridc).zpow_le_abs (sub_pos.mpr hgt).ne'
  rw [abs_of_pos (sub_pos.mpr hgt)] at hstep''
  have hnear := abs_sub_rounded_le_of_representable (x := y) (representable_real hfc)
  rw [abs_of_pos (sub_pos.mpr hbeyond)] at hnear
  linarith [(abs_le.mp hnear).1]

end CertifiedZeros.Binary64
