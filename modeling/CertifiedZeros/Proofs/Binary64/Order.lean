import CertifiedZeros.Proofs.Binary64.Neighbours

/-! # Floats as real numbers

Between floats and their real numbers there is a constant passage in proofs: constants are read off,
comparisons change sides, and a rounded operation is finite because its exact result is not too large.

* **`power_spec`**, **`two_spec`**, **`value_largest`** and their like — the constants.
* **`finite_of_abs_le`**, **`isFinite_add`** — rounded operations that do not overflow.
* **`real_le_real`**, **`le_of_real_le`**, **`lt_iff_real_lt`**, **`nonneg_spec`** — comparisons of floats
  and of real numbers.
* **`isFinite_of_between`**, **`finite_of_le_of_le`** — what lies between finite bounds is finite. -/

namespace CertifiedZeros.Binary64

/-! ## Constants -/

theorem isFinite_zero : (0 : Float).isFinite = true := by decide

theorem isFinite_one : (1 : Float).isFinite = true := by decide

theorem real_zero : real (0 : Float) = 0 := real_eq_of_value value_zero

theorem value_one : value (1 : Float) = ((1 : ℝ) : EReal) := by
  have h : (1 : Float).toModel.unpack = .finite .positive (2 ^ 52) (-52) (by norm_num) := rfl
  rw [value, h, unpackedValue, signFactor, one_mul]
  norm_num

theorem real_one : real (1 : Float) = 1 := real_eq_of_value value_one

/-- A float whose word is that of a power of two. -/
theorem power_spec {x : Float} {w : UInt64} {e : ℤ} (hx : x = .ofBits w)
    (hw : w.toNat < infinityWord) (hsignificand : wordSignificand w.toNat = 2 ^ 52)
    (hexponent : wordExponent w.toNat = e - 52) :
    x.isFinite = true ∧ real x = (2 : ℝ) ^ e := by
  obtain ⟨hfin, hreal⟩ := real_ofBits (u := w) hw
  rw [hx, hreal, magnitude, hsignificand, hexponent]
  refine ⟨hfin, ?_⟩
  rw [zpow_sub₀ (by norm_num)]
  norm_num
  ring

theorem half_spec : (0.5 : Float).isFinite = true ∧ real (0.5 : Float) = 1 / 2 := by
  have h := power_spec (x := 0.5) (w := 0x3FE0000000000000) (e := -1) (by decide +kernel) (by decide)
    (by decide) (by decide)
  rwa [show (2 : ℝ) ^ (-1 : ℤ) = 1 / 2 by norm_num] at h

theorem two_spec : (2 : Float).isFinite = true ∧ real (2 : Float) = 2 := by
  have h := power_spec (x := 2) (w := 0x4000000000000000) (e := 1) (by decide +kernel) (by decide)
    (by decide) (by decide)
  rwa [zpow_one] at h

theorem four_spec : (4 : Float).isFinite = true ∧ real (4 : Float) = 4 := by
  have h := power_spec (x := 4) (w := 0x4010000000000000) (e := 2) (by decide +kernel) (by decide)
    (by decide) (by decide)
  rwa [show (2 : ℝ) ^ (2 : ℤ) = 4 by norm_num] at h

theorem representable_one : Representable 1 := real_one ▸ representable_real isFinite_one

theorem representable_two : Representable 2 := two_spec.2 ▸ representable_real two_spec.1

/-- The largest finite float is one unit below the limit. -/
theorem value_largest : IsNumber largest ∧ value largest = ((limit - topUnit : ℝ) : EReal) := by
  obtain ⟨hfin, hreal⟩ := real_ofBits (u := 0x7FEFFFFFFFFFFFFF) (by decide)
  refine ⟨isNumber_of_isFinite hfin, ?_⟩
  have he : wordExponent (infinityWord - 1) = 971 := by decide
  have hsucc := magnitude_succ (infinityWord - 1)
  rw [show infinityWord - 1 + 1 = infinityWord by decide, magnitude_infinityWord, he] at hsucc
  have hmag : magnitude (infinityWord - 1) = limit - topUnit := by
    rw [topUnit]
    linarith
  rw [← hmag]
  exact (coe_real hfin).symm.trans (congrArg _ hreal)

/-! ## Operations without overflow -/

/-- **A rounded operation without overflow**: the exact result lies within a finite bound. -/
theorem finite_of_abs_le {x B : Float} {r : ℝ} (h : IsNumber x ∧ value x = clamp (rounded r))
    (hB : B.isFinite = true) (hr : |r| ≤ real B) : x.isFinite = true ∧ real x = rounded r := by
  have hlt : |rounded r| < limit := by
    rw [abs_rounded]
    exact (rounded_le (representable_real hB) hr).trans_lt (lt_of_abs_lt (abs_real_lt hB))
  rw [clamp_of_lt hlt] at h
  exact ⟨isFinite_of_value h.1 h.2, real_eq_of_value h.2⟩

/-- **Half of a finite float** is finite, and is rounded once. -/
theorem half_finite {a : Float} (ha : a.isFinite = true) :
    (0.5 * a).isFinite = true ∧ real (0.5 * a) = rounded (1 / 2 * real a) := by
  obtain ⟨habs, habsReal⟩ := abs_finite ha
  have hspec := mul_spec half_spec.1 ha
  rw [half_spec.2] at hspec
  refine finite_of_abs_le hspec habs ?_
  rw [habsReal, abs_mul, abs_of_pos one_half_pos]
  linarith [abs_nonneg (real a)]

/-- What a rounded operation says when its exact result is representable and not too large. -/
theorem exact_spec {x : Float} {r : ℝ} (h : IsNumber x ∧ value x = clamp (rounded r))
    (hrep : Representable r) (hlt : |r| < limit) : x.isFinite = true ∧ real x = r := by
  rw [rounded_eq hrep, clamp_of_lt hlt] at h
  exact ⟨isFinite_of_value h.1 h.2, real_eq_of_value h.2⟩

/-- The real value of a rounded operation with a finite result. -/
theorem real_eq_rounded {x : Float} {r : ℝ} (h : value x = clamp (rounded r))
    (hx : x.isFinite = true) : real x = rounded r :=
  (clamp_eq_coe (h ▸ (coe_real hx).symm)).symm

/-- A finite product is the rounded one. -/
theorem real_mul {x y : Float} (h : (x * y).isFinite = true) :
    real (x * y) = rounded (real x * real y) :=
  real_eq_rounded (mul_spec (isFinite_of_mul h).1 (isFinite_of_mul h).2).2 h

/-- **A sum that stays short of the limit** by half a unit is finite. -/
theorem isFinite_add {x y : Float} (hx : x.isFinite = true) (hy : y.isFinite = true)
    (h : |real x| + |real y| < limit - topUnit / 2) : (x + y).isFinite = true := by
  obtain ⟨hnum, hvalue⟩ := add_spec hx hy
  have hsum := (abs_add_le (real x) (real y)).trans_lt h
  rcases hnum.cases with hfinite | ⟨-, htop | hbot⟩
  · exact hfinite
  · have hover := clamp_rounded_eq_top_iff.mp (hvalue.symm.trans htop)
    exact absurd (lt_of_abs_lt hsum) hover.not_gt
  · have hunder := le_of_clamp_rounded_eq_bot (hvalue.symm.trans hbot)
    linarith [neg_lt_of_abs_lt hsum]

/-! ## Comparisons -/

/-- A maximum is one of its operands. -/
theorem larger_eq_or (x y : Float) : larger x y = x ∨ larger x y = y := by
  unfold larger
  split_ifs
  · exact .inr rfl
  · exact .inl rfl
  · exact .inr rfl
  · exact .inl rfl

/-- Floats are in a strict order, in which NaN stands apart. -/
instance isStrictOrder_float : IsStrictOrder Float (· < ·) where
  irrefl _ h := lt_irrefl _ (lt_iff.mp h).2.2
  trans _ _ _ h h' := by
    obtain ⟨hx, -, hxy⟩ := lt_iff.mp h
    obtain ⟨-, hz, hyz⟩ := lt_iff.mp h'
    exact lt_iff.mpr ⟨hx, hz, hxy.trans hyz⟩

/-- A float that equals zero is finite. -/
theorem isFinite_of_beq_zero {x : Float} (h : (x == 0) = true) : x.isFinite = true := by
  obtain ⟨hx, -, hzero⟩ := beq_iff.mp h
  rw [value_zero] at hzero
  exact isFinite_of_value hx hzero

/-- A float that is not negative, as a number. -/
theorem nonneg_spec {x : Float} (h : 0 ≤ x) : IsNumber x ∧ 0 ≤ value x := by
  obtain ⟨-, hnum, hle⟩ := le_iff.mp h
  rw [value_zero] at hle
  exact ⟨hnum, hle⟩

theorem nonneg_of_value {x : Float} (h : IsNumber x) (h0 : 0 ≤ value x) : 0 ≤ x :=
  le_iff.mpr ⟨zero_isNumber, h, by rwa [value_zero]⟩

theorem float_le_trans {x y z : Float} (h : x ≤ y) (h' : y ≤ z) : x ≤ z :=
  le_iff.mpr ⟨(le_iff.mp h).1, (le_iff.mp h').2.1, (le_iff.mp h).2.2.trans (le_iff.mp h').2.2⟩

theorem float_le_of_lt {x y : Float} (h : x < y) : x ≤ y :=
  le_iff.mpr ⟨(lt_iff.mp h).1, (lt_iff.mp h).2.1, (lt_iff.mp h).2.2.le⟩

/-- A finite float that is not negative, as a real number. -/
theorem real_nonneg {x : Float} (h : 0 ≤ x) (hfin : x.isFinite = true) : 0 ≤ real x := by
  have hle := (nonneg_spec h).2
  rwa [← coe_real hfin, EReal.coe_nonneg] at hle

/-- **A number between two reals** is finite. -/
theorem isFinite_of_between {x : Float} {r t : ℝ} (hnum : IsNumber x) (hr : (r : EReal) ≤ value x)
    (ht : value x ≤ (t : EReal)) : x.isFinite = true := by
  rcases hnum.cases with hfin | ⟨-, htop | hbot⟩
  · exact hfin
  · rw [htop] at ht
    exact absurd ht (not_le.mpr (EReal.coe_lt_top _))
  · rw [hbot] at hr
    exact absurd hr (not_le.mpr (EReal.bot_lt_coe _))

/-- A float between two finite ones is finite. -/
theorem finite_of_le_of_le {x y z : Float} (hxy : x ≤ y) (hyz : y ≤ z) (hx : x.isFinite = true)
    (hz : z.isFinite = true) : y.isFinite = true := by
  obtain ⟨-, hy, hle⟩ := le_iff.mp hxy
  obtain ⟨-, -, hle'⟩ := le_iff.mp hyz
  exact isFinite_of_between hy ((coe_real hx).le.trans hle) (hle'.trans (coe_real hz).ge)

theorem real_le_real {x y : Float} (h : x ≤ y) (hx : x.isFinite = true) (hy : y.isFinite = true) :
    real x ≤ real y := by
  have hle := (le_iff.mp h).2.2
  rwa [← coe_real hx, ← coe_real hy, EReal.coe_le_coe_iff] at hle

/-- Finite floats are ordered like their real numbers. -/
theorem lt_iff_real_lt {x y : Float} (hx : x.isFinite = true) (hy : y.isFinite = true) :
    x < y ↔ real x < real y := by
  rw [lt_iff, ← coe_real hx, ← coe_real hy, EReal.coe_lt_coe_iff]
  exact (and_iff_right (isNumber_of_isFinite hx)).trans (and_iff_right (isNumber_of_isFinite hy))

theorem le_of_real_le {x y : Float} (hx : x.isFinite = true) (hy : y.isFinite = true)
    (h : real x ≤ real y) : x ≤ y := by
  refine le_iff.mpr ⟨isNumber_of_isFinite hx, isNumber_of_isFinite hy, ?_⟩
  rwa [← coe_real hx, ← coe_real hy, EReal.coe_le_coe_iff]

end CertifiedZeros.Binary64
