import CertifiedZeros.Proofs.Binary64.ErrorFree
import CertifiedZeros.Proofs.Interval.Membership

/-! # How sums, products and quotients of two floats are enclosed

Each operation rounds its result and then computes on which side of it the exact one lies. What can
go wrong is that the computed error has no sign although the exact one has:

* **`ofSum_spec`** — the error of a sum is exact unless its computation overflows. Then the rounded
  sum lies above the exact one (`sumAbove`) or below it (`sumBelow`), and is returned as a point.
* **`ofProduct_brackets`** — the error of a product is never lost, because small products are
  enclosed without it.
* **`ofQuotient_spec`** — the remainder of a quotient is lost when it underflows (`remainderLost`),
  and then again the rounded quotient is returned as a point. -/

namespace CertifiedZeros.Interval

open Binary64

variable {a b : Float}

/-! ## The error of a sum -/

/-- **The computed error of a sum is exact** when the first difference is finite. -/
theorem sumError_spec (ha : a.isFinite = true) (hb : b.isFinite = true)
    (hs : (a + b).isFinite = true) (hv : (a + b - a).isFinite = true) :
    (sumError a b (a + b)).isFinite = true ∧
      real (sumError a b (a + b)) = real a + real b - real (a + b) := by
  have hra := representable_real ha
  have hrb := representable_real hb
  have hsum := real_eq_rounded (add_spec ha hb).2 hs
  have hvirtual := real_eq_rounded (sub_spec hs ha).2 hv
  rw [hsum] at hvirtual
  have hslt := abs_real_lt hs
  rw [hsum] at hslt
  obtain ⟨hrep₁, hrep₂, hrep₃⟩ := representable_twoSum hra hrb
  obtain ⟨hlt₁, hlt₂, hlt₃, hlt₄⟩ := abs_twoSum_lt hra hrb (abs_real_lt ha) hslt
  rw [← hvirtual] at hrep₁ hrep₂ hrep₃ hlt₁ hlt₂ hlt₃
  rw [← hsum] at hrep₁ hrep₂ hlt₁ hlt₂
  -- `s - b'`, then `a - (s - b')` and `b - b'`, then their sum
  obtain ⟨hf₁, hr₁⟩ := exact_spec (sub_spec hs hv) hrep₁ hlt₁
  obtain ⟨hf₂, hr₂⟩ := exact_spec (sub_spec ha hf₁) (by rwa [hr₁]) (by rwa [hr₁])
  obtain ⟨hf₃, hr₃⟩ := exact_spec (sub_spec hb hv) hrep₃ hlt₃
  have htotal : real (a - (a + b - (a + b - a))) + real (b - (a + b - a))
      = real a + real b - real (a + b) := by
    rw [hr₂, hr₁, hr₃]
    ring
  have herr := representable_add_error hra hrb
  rw [← hsum] at herr hlt₄
  obtain ⟨hf, hr⟩ := exact_spec (add_spec hf₂ hf₃) (by rwa [htotal]) (by rwa [htotal])
  exact ⟨hf, hr.trans htotal⟩

/-- **The computed error of a sum is a NaN** when the first difference overflows. -/
theorem sumError_of_overflow (ha : a.isFinite = true) (hb : b.isFinite = true)
    (hs : (a + b).isFinite = true) (hv : (a + b - a).isFinite = false) :
    ¬IsNumber (sumError a b (a + b)) := by
  have hvnum := (sub_spec hs ha).1
  have hva := isNumber_of_isFinite ha
  have hvs := isNumber_of_isFinite hs
  have hvb := isNumber_of_isFinite hb
  have hinf := hvnum.value_of_not_isFinite hv
  have hne : ∀ {x : Float}, x.isFinite = true → value x ≠ ⊤ ∧ value x ≠ ⊥ := fun hx => by
    rw [← coe_real hx]
    exact ⟨EReal.coe_ne_top _, EReal.coe_ne_bot _⟩
  have hsv := sub_infinite hvs hvnum (.inr hv) (fun h => (hne hs).1 h.1) (fun h => (hne hs).2 h.1)
  have hbv := sub_infinite hvb hvnum (.inr hv) (fun h => (hne hb).1 h.1) (fun h => (hne hb).2 h.1)
  have hsv' : value (a + b - (a + b - a)) = -value (a + b - a) := by
    rw [hsv.2, ← coe_real hs]
    rcases hinf with h | h <;> rw [h] <;> rfl
  have hbv' : value (b - (a + b - a)) = -value (a + b - a) := by
    rw [hbv.2, ← coe_real hb]
    rcases hinf with h | h <;> rw [h] <;> rfl
  have hsvf : (a + b - (a + b - a)).isFinite = false := by
    refine isFinite_eq_false ?_
    rw [hsv']
    rcases hinf with h | h <;> rw [h]
    · exact .inr rfl
    · exact .inl rfl
  have hav := sub_infinite hva hsv.1 (.inr hsvf) (fun h => (hne ha).1 h.1) (fun h => (hne ha).2 h.1)
  have hav' : value (a - (a + b - (a + b - a))) = value (a + b - a) := by
    rw [hav.2, hsv', ← coe_real ha]
    rcases hinf with h | h <;> rw [h] <;> rfl
  refine add_opposite hav.1 hbv.1 ?_
  rw [hav', hbv']
  rcases hinf with h | h <;> rw [h]
  · exact .inl ⟨rfl, rfl⟩
  · exact .inr ⟨rfl, rfl⟩

/-! ## Sums -/

/-- **The rounded sum is finite but lies above the exact one unnoticed**: what is taken for the
second operand overflows upwards, and the computed error is a NaN. -/
def sumAbove (a b : Float) : Bool :=
  (a + b).isFinite && a + b - a == infinity

/-- **The rounded sum is finite but lies below the exact one unnoticed.** -/
def sumBelow (a b : Float) : Bool :=
  (a + b).isFinite && a + b - a == -infinity

/-- Only finite operands lose an error. -/
theorem isFinite_of_sumAbove (h : sumAbove a b = true) : a.isFinite = true ∧ b.isFinite = true := by
  rw [sumAbove, Bool.and_eq_true] at h
  exact isFinite_of_add h.1

theorem isFinite_of_sumBelow (h : sumBelow a b = true) : a.isFinite = true ∧ b.isFinite = true := by
  rw [sumBelow, Bool.and_eq_true] at h
  exact isFinite_of_add h.1

theorem beq_infinity_iff {x : Float} (hx : IsNumber x) : (x == infinity) = true ↔ value x = ⊤ := by
  rw [beq_iff, value_infinity]
  exact ⟨fun h => h.2.2, fun h => ⟨hx, infinity_isNumber, h⟩⟩

theorem beq_neg_infinity_iff {x : Float} (hx : IsNumber x) :
    (x == -infinity) = true ↔ value x = ⊥ := by
  have hneg := neg_spec infinity_isNumber
  rw [beq_iff, hneg.2, value_infinity, EReal.neg_top]
  exact ⟨fun h => h.2.2, fun h => ⟨hx, hneg.1, h⟩⟩

/-- A number that overflows lies above every finite float. -/
theorem lt_of_clamp_eq_top {x g : ℝ} (hg : Representable g) (hlt : |g| < limit)
    (h : clamp (rounded x) = ⊤) : g < x := by
  by_contra hle
  have := clamp_mono (rounded_le hg (not_lt.mp hle))
  rw [h, clamp_of_lt hlt] at this
  exact absurd this (not_le.mpr (EReal.coe_lt_top g))

theorem lt_of_clamp_eq_bot {x g : ℝ} (hg : Representable g) (hlt : |g| < limit)
    (h : clamp (rounded x) = ⊥) : x < g := by
  by_contra hle
  have := clamp_mono (le_rounded hg (not_lt.mp hle))
  rw [h, clamp_of_lt hlt] at this
  exact absurd this (not_le.mpr (EReal.bot_lt_coe g))

/-- The comparison of a finite float with zero is that of its real number. -/
theorem pos_iff {x : Float} (hx : x.isFinite = true) : 0 < x ↔ 0 < real x := by
  rw [lt_iff, value_zero, ← coe_real hx]
  simp only [zero_isNumber, isNumber_of_isFinite hx, true_and]
  exact_mod_cast Iff.rfl

theorem neg_iff {x : Float} (hx : x.isFinite = true) : x < 0 ↔ real x < 0 := by
  rw [lt_iff, value_zero, ← coe_real hx]
  simp only [zero_isNumber, isNumber_of_isFinite hx, true_and]
  exact_mod_cast Iff.rfl

/-- The lower end goes down whenever the rounded sum is too large, unless the error was lost. -/
theorem sumError_neg_or_le (ha : a.isFinite = true) (hb : b.isFinite = true)
    (hs : (a + b).isFinite = true) :
    sumError a b (a + b) < 0 ∨ real (a + b) ≤ real a + real b ↔ (a + b - a == infinity) = false := by
  have hvirtual := sub_spec hs ha
  rw [Bool.eq_false_iff, Ne, beq_infinity_iff hvirtual.1]
  rcases Bool.eq_false_or_eq_true (a + b - a).isFinite with hv | hv
  · obtain ⟨hef, her⟩ := sumError_spec ha hb hs hv
    rw [neg_iff hef, her]
    refine iff_of_true ?_ (coe_real hv ▸ EReal.coe_ne_top _)
    rcases lt_or_ge (real a + real b) (real (a + b)) with h | h
    · exact .inl (by linarith)
    · exact .inr h
  · have hnan := sumError_of_overflow ha hb hs hv
    rw [or_iff_right fun h => hnan (lt_iff.mp h).1]
    rcases hvirtual.1.value_of_not_isFinite hv with h | h
    · refine iff_of_false (not_le.mpr ?_) (not_not.mpr h)
      rw [hvirtual.2] at h
      linarith [lt_of_clamp_eq_top (representable_real hb) (abs_real_lt hb) h]
    · refine iff_of_true ?_ (by rw [h]; simp)
      rw [hvirtual.2] at h
      linarith [lt_of_clamp_eq_bot (representable_real hb) (abs_real_lt hb) h]

/-- The upper end goes up whenever the rounded sum is too small, unless the error was lost. -/
theorem sumError_pos_or_le (ha : a.isFinite = true) (hb : b.isFinite = true)
    (hs : (a + b).isFinite = true) :
    0 < sumError a b (a + b) ∨ real a + real b ≤ real (a + b)
      ↔ (a + b - a == -infinity) = false := by
  have hvirtual := sub_spec hs ha
  rw [Bool.eq_false_iff, Ne, beq_neg_infinity_iff hvirtual.1]
  rcases Bool.eq_false_or_eq_true (a + b - a).isFinite with hv | hv
  · obtain ⟨hef, her⟩ := sumError_spec ha hb hs hv
    rw [pos_iff hef, her]
    refine iff_of_true ?_ (coe_real hv ▸ EReal.coe_ne_bot _)
    rcases lt_or_ge (real (a + b)) (real a + real b) with h | h
    · exact .inl (by linarith)
    · exact .inr h
  · have hnan := sumError_of_overflow ha hb hs hv
    rw [or_iff_right fun h => hnan (lt_iff.mp h).2.1]
    rcases hvirtual.1.value_of_not_isFinite hv with h | h
    · refine iff_of_true ?_ (by rw [h]; simp)
      rw [hvirtual.2] at h
      linarith [lt_of_clamp_eq_top (representable_real hb) (abs_real_lt hb) h]
    · refine iff_of_false (not_le.mpr ?_) (not_not.mpr h)
      rw [hvirtual.2] at h
      linarith [lt_of_clamp_eq_bot (representable_real hb) (abs_real_lt hb) h]

/-- **A sum of finite floats is enclosed on either side** unless its rounding error was lost on
that side. -/
theorem ofSum_spec (ha : a.isFinite = true) (hb : b.isFinite = true) :
    IsNumber (ofSum a b).lo ∧ IsNumber (ofSum a b).hi ∧
      (value (ofSum a b).lo ≤ ((real a + real b : ℝ) : EReal) ↔ sumAbove a b = false) ∧
      (((real a + real b : ℝ) : EReal) ≤ value (ofSum a b).hi ↔ sumBelow a b = false) := by
  have hsum := add_spec ha hb
  unfold ofSum sumAbove sumBelow
  rcases Bool.eq_false_or_eq_true (a + b).isFinite with hs | hs
  · simp only [hs, if_true, Bool.true_and]
    obtain ⟨hlo, hhi, hlower, hupper⟩ := besides_spec (e := sumError a b (a + b)) hs hsum.2
    exact ⟨hlo, hhi, hlower.trans (sumError_neg_or_le ha hb hs),
      hupper.trans (sumError_pos_or_le ha hb hs)⟩
  · simp only [hs, ha, hb, Bool.false_eq_true, if_false, if_true, Bool.and_self, Bool.false_and,
      iff_true]
    exact ofOverflow_brackets hsum.1 hs hsum.2

/-- A sum with an operand that is not finite is returned as a point. -/
theorem ofSum_eq_point (h : a.isFinite = false ∨ b.isFinite = false) :
    ofSum a b = point (a + b) := by
  have hs : (a + b).isFinite = false := by
    refine Bool.eq_false_iff.mpr fun hs => ?_
    obtain ⟨ha, hb⟩ := isFinite_of_add hs
    rcases h with h | h
    · exact Bool.noConfusion (ha.symm.trans h)
    · exact Bool.noConfusion (hb.symm.trans h)
  have hand : (a.isFinite && b.isFinite) = false := by
    rcases h with h | h <;> simp [h]
  simp only [ofSum, hs, hand, Bool.false_eq_true, if_false]

/-- **A sum with an infinite operand** is that infinity, as a point. -/
theorem ofSum_infinite (ha : IsNumber a) (hb : IsNumber b)
    (hinf : a.isFinite = false ∨ b.isFinite = false)
    (hpos : ¬(value a = ⊤ ∧ value b = ⊥)) (hneg : ¬(value a = ⊥ ∧ value b = ⊤)) :
    (ofSum a b).Brackets (value a + value b) ∧ sumAbove a b = false ∧ sumBelow a b = false := by
  obtain ⟨hnum, hval⟩ := add_infinite ha hb hinf hpos hneg
  have hs : (a + b).isFinite = false := by
    refine isFinite_eq_false ?_
    rw [hval]
    rcases hinf with h | h
    · rcases ha.value_of_not_isFinite h with h | h <;> rw [h] at hpos hneg ⊢
      · exact .inl (EReal.top_add_of_ne_bot fun h' => hpos ⟨rfl, h'⟩)
      · exact .inr (EReal.bot_add _)
    · rcases hb.value_of_not_isFinite h with h | h <;> rw [h] at hpos hneg ⊢
      · exact .inl (EReal.add_top_of_ne_bot fun h' => hneg ⟨h', rfl⟩)
      · exact .inr (EReal.add_bot _)
  refine ⟨?_, by simp [sumAbove, hs], by simp [sumBelow, hs]⟩
  rw [ofSum_eq_point hinf]
  exact ⟨hnum, hnum, hval.le, hval.ge⟩

/-- The largest rounding error that a finite sum can have. -/
theorem abs_sub_add_le (ha : a.isFinite = true) (hb : b.isFinite = true)
    (hs : (a + b).isFinite = true) : |real a + real b - real (a + b)| ≤ topUnit / 2 := by
  have hsum := real_eq_rounded (add_spec ha hb).2 hs
  rw [hsum]
  exact abs_sub_rounded_le_topUnit (by rw [← hsum]; exact abs_real_lt hs)

/-- **When a sum lies above the exact one unnoticed**: the second operand is the largest float, and
the first one is negative. -/
theorem sumAbove_spec (h : sumAbove a b = true) :
    real b = limit - topUnit ∧ real a ≤ -(topUnit / 2) := by
  obtain ⟨ha, hb⟩ := isFinite_of_sumAbove h
  rw [sumAbove, Bool.and_eq_true] at h
  obtain ⟨hs, hv⟩ := h
  have hvirtual := sub_spec hs ha
  rw [beq_infinity_iff hvirtual.1, hvirtual.2] at hv
  have hlost := le_of_clamp_rounded_eq_top hv
  have herr := abs_le.mp (abs_sub_add_le ha hb hs)
  have hlarge := abs_le.mp ((representable_real hb).abs_le_of_lt_limit (abs_real_lt hb))
  have hsum := abs_le.mp ((representable_real hs).abs_le_of_lt_limit (abs_real_lt hs))
  constructor <;> linarith

theorem sumBelow_spec (h : sumBelow a b = true) :
    real b = -(limit - topUnit) ∧ topUnit / 2 ≤ real a := by
  obtain ⟨ha, hb⟩ := isFinite_of_sumBelow h
  rw [sumBelow, Bool.and_eq_true] at h
  obtain ⟨hs, hv⟩ := h
  have hvirtual := sub_spec hs ha
  rw [beq_neg_infinity_iff hvirtual.1, hvirtual.2] at hv
  have hlost := le_of_clamp_rounded_eq_bot hv
  have herr := abs_le.mp (abs_sub_add_le ha hb hs)
  have hlarge := abs_le.mp ((representable_real hb).abs_le_of_lt_limit (abs_real_lt hb))
  have hsum := abs_le.mp ((representable_real hs).abs_le_of_lt_limit (abs_real_lt hs))
  constructor <;> linarith

/-! ## Products -/

/-- **The threshold below which errors are not relied upon** is a normal float. -/
theorem residualFloor_spec :
    residualFloor.isFinite = true ∧ (2 : ℝ) ^ (-964 : ℤ) ≤ real residualFloor := by
  obtain ⟨hfin, hreal⟩ := real_ofBits (u := 0x03B8F2B061AEA072) (by decide)
  refine ⟨hfin, ?_⟩
  have he : wordExponent (UInt64.toNat 0x03B8F2B061AEA072) = -1016 := by decide
  have hm : 2 ^ 52 ≤ wordSignificand (UInt64.toNat 0x03B8F2B061AEA072) := by decide
  change (2 : ℝ) ^ (-964 : ℤ) ≤ real (Float.ofBits 0x03B8F2B061AEA072)
  rw [hreal, magnitude, he, show (-964 : ℤ) = -1016 + (52 : ℕ) by norm_num,
    zpow_two_add]
  exact mul_le_mul_of_nonneg_right (by exact_mod_cast hm) (zpow_two_pos _).le

/-- A finite float that is not below the threshold is at least a power of two in size. -/
theorem zpow_le_abs_of_not_lt {p : Float} (hp : p.isFinite = true) (h : ¬p.abs < residualFloor) :
    (2 : ℝ) ^ (-964 : ℤ) ≤ |real p| := by
  obtain ⟨hfin, hfloor⟩ := residualFloor_spec
  obtain ⟨hafin, habs⟩ := abs_finite hp
  refine hfloor.trans ?_
  by_contra hlt
  refine h (lt_iff.mpr ⟨isNumber_of_isFinite hafin, isNumber_of_isFinite hfin, ?_⟩)
  rw [← coe_real hafin, ← coe_real hfin, habs, EReal.coe_lt_coe_iff]
  exact not_le.mp hlt

/-- The comparison of a number with zero is that of its value. -/
theorem beq_zero_iff {x : Float} (hx : IsNumber x) : (x == 0) = true ↔ value x = 0 := by
  rw [beq_iff, value_zero]
  exact ⟨fun h => h.2.2, fun h => ⟨hx, zero_isNumber, h⟩⟩

theorem zero_brackets : (0 : Interval).Brackets 0 :=
  ⟨zero_isNumber, zero_isNumber, value_zero.le, value_zero.ge⟩

/-- **The residual of a product has the sign of the exact error.** -/
theorem fma_neg_product_spec (ha : a.isFinite = true) (hb : b.isFinite = true)
    (hp : (a * b).isFinite = true) (hlarge : ¬(a * b).abs < residualFloor) :
    (0 < fma a b (-(a * b)) ↔ real (a * b) < real a * real b) ∧
      (fma a b (-(a * b)) < 0 ↔ real a * real b < real (a * b)) := by
  have hprod := real_eq_rounded (mul_spec ha hb).2 hp
  obtain ⟨hnegfin, hneg⟩ := neg_finite hp
  obtain ⟨hnum, hval⟩ := fma_spec ha hb hnegfin
  rw [hneg, ← sub_eq_add_neg] at hval
  have hsize : (2 : ℝ) ^ (-965 : ℤ) ≤ |real a * real b| := by
    have hfloor := zpow_le_abs_of_not_lt hp hlarge
    rw [hprod, abs_rounded] at hfloor
    refine (lt_of_lt_rounded (representable_zpow (by norm_num)) ?_).le
    exact lt_of_lt_of_le (zpow_two_lt (by norm_num)) hfloor
  obtain ⟨e, he, hgrid⟩ := exists_onGrid_mul_error (representable_real ha) (representable_real hb)
    hsize
  rw [← hprod] at hgrid
  have hgrid' := hgrid.neg
  constructor
  · rw [lt_iff, value_zero, hval, clamp_pos_iff, rounded_pos_iff he hgrid, sub_pos]
    simp only [zero_isNumber, hnum, true_and]
  · rw [lt_iff, value_zero, hval, clamp_neg_iff, ← neg_pos, ← rounded_neg,
      rounded_pos_iff he hgrid', neg_sub, sub_pos]
    simp only [zero_isNumber, hnum, true_and]

/-- **A product is enclosed**, whatever its factors: zero takes precedence over infinity, as it does
for extended reals. -/
theorem ofProduct_brackets (ha : IsNumber a) (hb : IsNumber b) :
    (ofProduct a b).Brackets (value a * value b) := by
  unfold ofProduct
  rcases Classical.em (value a = 0 ∨ value b = 0) with h0 | h0
  · have hzero : (a == 0 || b == 0) = true := by
      rw [Bool.or_eq_true, beq_zero_iff ha, beq_zero_iff hb]
      exact h0
    have hprod : value a * value b = 0 := by rcases h0 with h | h <;> rw [h] <;> simp
    rw [if_pos hzero, hprod]
    exact zero_brackets
  · have hzero : ¬(a == 0 || b == 0) = true := by
      rw [Bool.or_eq_true, beq_zero_iff ha, beq_zero_iff hb]
      exact h0
    obtain ⟨ha0, hb0⟩ := not_or.mp h0
    rw [if_neg hzero]
    by_cases hfin : a.isFinite = true ∧ b.isFinite = true
    · obtain ⟨hfa, hfb⟩ := hfin
      have hprod := mul_spec hfa hfb
      rw [← coe_real hfa, ← coe_real hfb, ← EReal.coe_mul]
      rcases Bool.eq_false_or_eq_true (a * b).isFinite with hp | hp
      · simp only [hp, if_true]
        split_ifs with hsmall
        · exact around_brackets hp hprod.2
        · obtain ⟨hlo, hhi, hlower, hupper⟩ :=
            besides_spec (e := fma a b (-(a * b))) hp hprod.2
          obtain ⟨hpos, hneg⟩ := fma_neg_product_spec hfa hfb hp hsmall
          refine ⟨hlo, hhi, hlower.mpr ?_, hupper.mpr ?_⟩
          · rw [hneg]
            exact lt_or_ge _ _
          · rw [hpos]
            exact lt_or_ge _ _
      · simp only [hp, hfa, hfb, Bool.false_eq_true, if_false, if_true, Bool.and_self]
        exact ofOverflow_brackets hprod.1 hp hprod.2
    · have hinf : a.isFinite = false ∨ b.isFinite = false := by
        rw [not_and_or, Bool.not_eq_true, Bool.not_eq_true] at hfin
        exact hfin
      obtain ⟨hnum, hval⟩ := mul_infinite ha hb hinf ha0 hb0
      have hp : (a * b).isFinite = false := by
        refine isFinite_eq_false ?_
        rw [hval]
        rcases hinf with h | h
        · exact mul_eq_infinite (ha.value_of_not_isFinite h) hb0
        · rw [EReal.mul_comm]
          exact mul_eq_infinite (hb.value_of_not_isFinite h) ha0
      have hand : (a.isFinite && b.isFinite) = false := by
        rcases hinf with h | h <;> simp [h]
      simp only [hp, hand, Bool.false_eq_true, if_false]
      exact ⟨hnum, hnum, hval.le, hval.ge⟩

/-! ## Quotients -/

/-- **The computed remainder of a quotient is zero**, and the quotient is large enough for the
remainder to be asked for. -/
def remainderVanishes (a b : Float) : Bool :=
  (a / b).isFinite && !((a / b).abs < residualFloor) && fma (-(a / b)) b a == 0

/-- **The rounded quotient lies above the exact one unnoticed**: the remainder has underflowed. -/
def quotientAbove (a b : Float) : Prop :=
  remainderVanishes a b = true ∧ real a / real b < real (a / b)

/-- **The rounded quotient lies below the exact one unnoticed.** -/
def quotientBelow (a b : Float) : Prop :=
  remainderVanishes a b = true ∧ real (a / b) < real a / real b

/-- **The remainder of a quotient**, rounded once. -/
theorem fma_remainder_spec (ha : a.isFinite = true) (hb : b.isFinite = true)
    (hq : (a / b).isFinite = true) :
    IsNumber (fma (-(a / b)) b a) ∧
      value (fma (-(a / b)) b a) = clamp (rounded (real a - real (a / b) * real b)) := by
  obtain ⟨hnegfin, hneg⟩ := neg_finite hq
  have h := fma_spec hnegfin hb ha
  rw [hneg, neg_mul, neg_add_eq_sub] at h
  exact h

/-- **The remainder with the sign of the divisor taken off**, as the interval is chosen by it. -/
def sidedRemainder (a b : Float) : Float :=
  if b > 0 then fma (-(a / b)) b a else -fma (-(a / b)) b a

/-- **How a quotient is enclosed**: by zero, by both neighbours, by the side of its remainder, or as
an overflow. -/
theorem ofQuotient_cases (ha : a.isFinite = true) (hb : b.isFinite = true) :
    (real a = 0 ∧ ofQuotient a b = 0) ∨
      ((a / b).isFinite = true ∧ (a / b).abs < residualFloor ∧ ofQuotient a b = around (a / b)) ∨
      ((a / b).isFinite = true ∧ ¬(a / b).abs < residualFloor ∧
        ofQuotient a b = besides (a / b) (sidedRemainder a b)) ∨
      ((a / b).isFinite = false ∧ ofQuotient a b = ofOverflow (a / b)) := by
  have hbinf : b.isInf = false := by
    rw [Bool.eq_false_iff, Ne, isInf_iff, ← coe_real hb]
    exact fun h => h.2.elim (EReal.coe_ne_top _) (EReal.coe_ne_bot _)
  by_cases ha0 : (a == 0) = true
  · have hra : value a = 0 := (beq_zero_iff (isNumber_of_isFinite ha)).mp ha0
    rw [← coe_real ha] at hra
    exact .inl ⟨by exact_mod_cast hra, by rw [ofQuotient, if_pos ha0]⟩
  · refine .inr ?_
    rcases Bool.eq_false_or_eq_true (a / b).isFinite with hq | hq
    · by_cases hsmall : (a / b).abs < residualFloor
      · refine .inl ⟨hq, hsmall, ?_⟩
        simp only [ofQuotient, ha0, hq, hsmall, decide_true, Bool.true_or, if_true,
          Bool.false_eq_true, if_false]
      · refine .inr (.inl ⟨hq, hsmall, ?_⟩)
        simp only [ofQuotient, ha0, hq, hsmall, hbinf, decide_false, Bool.or_self, if_true,
          Bool.false_eq_true, if_false, sidedRemainder]
    · refine .inr (.inr ⟨hq, ?_⟩)
      simp only [ofQuotient, ha0, hq, ha, if_true, Bool.false_eq_true, if_false]

/-- The side of the quotient is that of the remainder, turned around for a negative divisor. -/
theorem sidedRemainder_spec (ha : a.isFinite = true) (hb : b.isFinite = true) (h0 : real b ≠ 0)
    (hq : (a / b).isFinite = true) (hr : ¬(fma (-(a / b)) b a == 0) = true) :
    (0 < sidedRemainder a b ↔ real (a / b) < real a / real b) ∧
      (sidedRemainder a b < 0 ↔ real a / real b < real (a / b)) := by
  obtain ⟨hnum, hval⟩ := fma_remainder_spec ha hb hq
  rw [beq_zero_iff hnum, hval] at hr
  have hposR : 0 < clamp (rounded (real a - real (a / b) * real b))
      ↔ 0 < real a - real (a / b) * real b := by
    rw [clamp_pos_iff]
    refine ⟨lt_of_lt_rounded representable_zero, fun h => ?_⟩
    refine lt_of_le_of_ne (le_rounded representable_zero h.le) fun h' => hr ?_
    rw [← h', clamp_of_lt (by rw [abs_zero]; exact limit_pos)]
    rfl
  have hnegR : clamp (rounded (real a - real (a / b) * real b)) < 0
      ↔ real a - real (a / b) * real b < 0 := by
    rw [clamp_neg_iff]
    refine ⟨lt_of_rounded_lt representable_zero, fun h => ?_⟩
    refine lt_of_le_of_ne (rounded_le representable_zero h.le) fun h' => hr ?_
    rw [h', clamp_of_lt (by rw [abs_zero]; exact limit_pos)]
    rfl
  have hnegnum := neg_spec hnum
  unfold sidedRemainder
  rcases h0.lt_or_gt with hneg | hpos
  · have hb' : ¬b > 0 := fun h => absurd ((pos_iff hb).mp h) (not_lt.mpr hneg.le)
    rw [if_neg hb', lt_iff, lt_iff, hnegnum.2, hval, value_zero, EReal.neg_pos, EReal.neg_lt_comm,
      neg_zero, hposR, hnegR, lt_div_iff_of_neg hneg, div_lt_iff_of_neg hneg]
    simp only [zero_isNumber, hnegnum.1, true_and]
    constructor <;> constructor <;> intro h <;> linarith
  · rw [if_pos ((pos_iff hb).mpr hpos), lt_iff, lt_iff, hval, value_zero, hposR, hnegR,
      lt_div_iff₀ hpos, div_lt_iff₀ hpos]
    simp only [zero_isNumber, hnum, true_and]
    constructor <;> constructor <;> intro h <;> linarith

/-- A remainder that is zero has no side. -/
theorem sidedRemainder_of_zero (ha : a.isFinite = true) (hb : b.isFinite = true)
    (hq : (a / b).isFinite = true) (hr : (fma (-(a / b)) b a == 0) = true) :
    ¬0 < sidedRemainder a b ∧ ¬sidedRemainder a b < 0 := by
  have hnum := (fma_remainder_spec ha hb hq).1
  rw [beq_zero_iff hnum] at hr
  have hneg := (neg_spec hnum).2
  rw [hr, neg_zero] at hneg
  rw [lt_iff, lt_iff, value_zero, sidedRemainder]
  split_ifs
  · rw [hr]
    simp
  · rw [hneg]
    simp

/-- **A quotient of finite floats is enclosed on either side** unless its remainder was lost on
that side. -/
theorem ofQuotient_spec (ha : a.isFinite = true) (hb : b.isFinite = true) (h0 : real b ≠ 0) :
    IsNumber (ofQuotient a b).lo ∧ IsNumber (ofQuotient a b).hi ∧
      (value (ofQuotient a b).lo ≤ ((real a / real b : ℝ) : EReal) ↔ ¬quotientAbove a b) ∧
      (((real a / real b : ℝ) : EReal) ≤ value (ofQuotient a b).hi ↔ ¬quotientBelow a b) := by
  have hquot := div_spec ha hb h0
  unfold quotientAbove quotientBelow
  rcases ofQuotient_cases ha hb with ⟨hra, hcase⟩ | ⟨hq, hsmall, hcase⟩ | ⟨hq, hsmall, hcase⟩ |
    ⟨hq, hcase⟩ <;> rw [hcase]
  · rw [hra, zero_div, clamp_rounded_zero] at hquot
    rw [hra, zero_div, real_eq_of_value (r := 0) hquot.2]
    simp only [lt_irrefl, and_false, not_false_eq_true, iff_true]
    exact zero_brackets
  · have hvan : remainderVanishes a b = false := by simp [remainderVanishes, hsmall]
    simp only [hvan, Bool.false_eq_true, false_and, not_false_eq_true, iff_true]
    exact around_brackets hq hquot.2
  · have hvan : remainderVanishes a b = (fma (-(a / b)) b a == 0) := by
      simp [remainderVanishes, hq, hsmall]
    obtain ⟨hlo, hhi, hlower, hupper⟩ := besides_spec (e := sidedRemainder a b) hq hquot.2
    rw [hvan]
    refine ⟨hlo, hhi, hlower.trans ?_, hupper.trans ?_⟩
    all_goals by_cases hr : (fma (-(a / b)) b a == 0) = true
    · rw [or_iff_right (sidedRemainder_of_zero ha hb hq hr).2, hr]
      simp
    · rw [(sidedRemainder_spec ha hb h0 hq hr).2]
      exact iff_of_true (lt_or_ge _ _) fun h => hr h.1
    · rw [or_iff_right (sidedRemainder_of_zero ha hb hq hr).1, hr]
      simp
    · rw [(sidedRemainder_spec ha hb h0 hq hr).1]
      exact iff_of_true (lt_or_ge _ _) fun h => hr h.1
  · have hvan : remainderVanishes a b = false := by simp [remainderVanishes, hq]
    simp only [hvan, Bool.false_eq_true, false_and, not_false_eq_true, iff_true]
    exact ofOverflow_brackets hquot.1 hq hquot.2

end CertifiedZeros.Interval
