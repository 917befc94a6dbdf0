import CertifiedZeros.Proofs.Binary64.RelativeError
import CertifiedZeros.Proofs.Interval.Weights

/-! # The lower end of an even power

An even power is taken of the absolute value, so that its lower end comes from a chain of products
rounded down that starts at one and has no negative factor. The chain leaves the non-negative floats
only where a product of two positive ones underflows to zero, since a product that small is widened
to both sides:

* **`productVanishes c a`** — both factors are positive, and their product is rounded to zero.
* **`ofProduct_lo_nonneg`**, **`ofProduct_lo_of_underflow`** — one product, without and with an
  underflow.
* **`powerBelow_cases`** — the chain. Once it has fallen it stays at the negative float next to zero:
  the base is then at most one half, and the next product underflows, too.
* **`evenPower_lo_spec`** — the lower end of an even power. -/

namespace CertifiedZeros.Binary64

variable {x : ℝ} {s : Float}

/-! ## Underflow to zero -/

/-- **What is rounded to zero**: the numbers up to half the least positive float, the tie included. -/
theorem rounded_eq_zero_iff : rounded x = 0 ↔ |x| ≤ underflowError := by
  have hunit : |x| < (2 : ℝ) ^ (-1074 : ℤ) → unitExponent x = -1074 := fun h =>
    le_antisymm (unitExponent_le le_rfl (h.trans (zpow_two_lt (by norm_num)))) (le_unitExponent x)
  constructor
  · intro h
    have hlt : |x| < (2 : ℝ) ^ (-1074 : ℤ) := by
      by_contra hge
      have hle := le_rounded (representable_zpow le_rfl) (not_lt.mp hge)
      rw [← abs_rounded, h, abs_zero] at hle
      exact absurd (zpow_two_pos (-1074)) (not_lt.mpr hle)
    have herr := abs_sub_rounded_le x
    rwa [h, sub_zero, hunit hlt, half_least_eq] at herr
  · intro h
    have hexp : unitExponent x = -1074 :=
      hunit (h.trans_lt (by rw [← half_least_eq]; linarith [zpow_two_pos (-1074)]))
    have hround := rounded_eq_of_even (x := x) (n := 0) Even.zero (by
      rw [Int.cast_zero, zero_mul, sub_zero, hexp, half_least_eq]
      exact h)
    rwa [Int.cast_zero, zero_mul] at hround

/-- A positive finite float is at least the least one. -/
theorem zpow_le_real_of_pos (hs : s.isFinite = true) (h : 0 < real s) :
    (2 : ℝ) ^ (-1074 : ℤ) ≤ real s := by
  have hstep := (representable_real hs).onGrid_least.zpow_le_abs h.ne'
  rwa [abs_of_pos h] at hstep

/-- **The float below zero.** -/
theorem value_nextDown_of_zero (hs : IsNumber s) (h : value s = 0) :
    value (nextDown s) = ((-(2 : ℝ) ^ (-1074 : ℤ) : ℝ) : EReal) := by
  have hrep : Representable (-(2 : ℝ) ^ (-1074 : ℤ)) := (representable_zpow le_rfl).neg
  have hlt : |(-(2 : ℝ) ^ (-1074 : ℤ))| < limit := by
    rw [abs_neg, abs_of_pos (zpow_two_pos _)]
    exact zpow_two_lt (by norm_num)
  obtain ⟨g, hg, hgreal⟩ := exists_float hrep hlt
  have hpos := zpow_two_pos (-1074)
  apply le_antisymm
  · -- the neighbour is negative, and so at least one place below zero
    have hdown := nextDown_lt hs (by rw [h]; exact EReal.zero_ne_bot)
    rw [h] at hdown
    have hnum := isNumber_nextDown hs
    rcases hnum.cases with hfin | ⟨-, htop | hbot⟩
    · rw [← coe_real hfin, EReal.coe_neg'] at hdown
      have hstep := (representable_real hfin).onGrid_least.zpow_le_abs hdown.ne
      rw [abs_of_neg hdown] at hstep
      rw [← coe_real hfin, EReal.coe_le_coe_iff]
      linarith
    · exact absurd (htop ▸ hdown) (by simp)
    · exact hbot ▸ bot_le
  · rw [← hgreal, coe_real hg]
    refine le_nextDown_of_value_lt hs (isNumber_of_isFinite hg) ?_
    rw [h, ← coe_real hg, hgreal, EReal.coe_neg']
    linarith

end CertifiedZeros.Binary64

namespace CertifiedZeros.Interval

open Binary64

variable {X : Interval} {a c : Float} {n : ℕ}

/-! ## One product rounded down -/

/-- **A product of two positive floats that is rounded to zero.** -/
def productVanishes (c a : Float) : Bool :=
  0 < c && 0 < a && c * a == 0

theorem productVanishes_spec (h : productVanishes c a = true) :
    c.isFinite = true ∧ a.isFinite = true ∧ 0 < real c ∧ 0 < real a ∧
      real c * real a ≤ underflowError := by
  simp only [productVanishes, Bool.and_eq_true, decide_eq_true_eq] at h
  obtain ⟨⟨hc, ha⟩, hzero⟩ := h
  have hfin := isFinite_of_beq_zero hzero
  obtain ⟨hcfin, hafin⟩ := isFinite_of_mul hfin
  obtain ⟨hnum, hval⟩ := mul_spec hcfin hafin
  rw [(beq_zero_iff hnum).mp hzero] at hval
  have hround := rounded_eq_zero_iff.mp (clamp_eq_coe (y := 0) hval.symm)
  exact ⟨hcfin, hafin, (pos_iff hcfin).mp hc, (pos_iff hafin).mp ha, (le_abs_self _).trans hround⟩

/-- **A product that underflows to zero** is widened to the negative float next to zero. -/
theorem ofProduct_lo_of_underflow (hc : c.isFinite = true) (ha : a.isFinite = true)
    (hc0 : real c ≠ 0) (ha0 : real a ≠ 0) (h : |real c * real a| ≤ underflowError) :
    value (ofProduct c a).lo = ((-(2 : ℝ) ^ (-1074 : ℤ) : ℝ) : EReal) := by
  obtain ⟨hnum, hval⟩ := mul_spec hc ha
  rw [rounded_eq_zero_iff.mpr h, clamp_of_lt (by rw [abs_zero]; exact limit_pos),
    EReal.coe_zero] at hval
  have hfin : (c * a).isFinite = true := isFinite_of_value (r := 0) hnum hval
  have hsmall : (c * a).abs < residualFloor := by
    by_contra hge
    have hlarge := zpow_le_abs_of_not_lt hfin hge
    rw [real_eq_of_value (r := 0) hval, abs_zero] at hlarge
    exact absurd (zpow_two_pos (-964)) (not_lt.mpr hlarge)
  have hfactors : ¬(c == 0 || a == 0) = true := by
    rw [Bool.or_eq_true, beq_zero_iff (isNumber_of_isFinite hc), ← coe_real hc,
      beq_zero_iff (isNumber_of_isFinite ha), ← coe_real ha, EReal.coe_eq_zero, EReal.coe_eq_zero]
    exact not_or.mpr ⟨hc0, ha0⟩
  unfold ofProduct
  rw [if_neg hfactors]
  simp only [hfin, hsmall, if_true]
  exact value_nextDown_of_zero hnum hval

/-- **A product that does not underflow to zero** stays non-negative when it is rounded down. -/
theorem ofProduct_lo_nonneg (hc : IsNumber c) (ha : IsNumber a) (hc0 : 0 ≤ value c)
    (ha0 : 0 ≤ value a) (h : productVanishes c a = false) : 0 ≤ value (ofProduct c a).lo := by
  by_cases hzero : value c = 0 ∨ value a = 0
  · rw [ofProduct, if_pos (by rwa [Bool.or_eq_true, beq_zero_iff hc, beq_zero_iff ha])]
    exact value_zero.ge
  obtain ⟨hcne, hane⟩ := not_or.mp hzero
  by_cases hfin : c.isFinite = true ∧ a.isFinite = true
  · obtain ⟨hcfin, hafin⟩ := hfin
    obtain ⟨hnum, hval⟩ := mul_spec hcfin hafin
    have hcpos : 0 < c :=
      lt_iff.mpr ⟨zero_isNumber, hc, value_zero ▸ lt_of_le_of_ne hc0 (Ne.symm hcne)⟩
    have hapos : 0 < a :=
      lt_iff.mpr ⟨zero_isNumber, ha, value_zero ▸ lt_of_le_of_ne ha0 (Ne.symm hane)⟩
    have hprod : 0 ≤ real c * real a :=
      mul_nonneg ((pos_iff hcfin).mp hcpos).le ((pos_iff hafin).mp hapos).le
    have hround : 0 ≤ value (c * a) := by
      have hle := clamp_mono (le_rounded representable_zero hprod)
      rwa [clamp_of_lt (by rw [abs_zero]; exact limit_pos), ← hval] at hle
    rw [← value_zero]
    refine le_ofProduct_lo hcfin hafin isFinite_zero (real_zero ▸ hprod) fun _ _ => ?_
    -- a small product may be moved down, but not from zero
    rw [value_zero]
    refine lt_of_le_of_ne hround fun heq => ?_
    simp [productVanishes, hcpos, hapos, (beq_zero_iff hnum).mpr heq.symm] at h
  · rw [not_and_or, Bool.not_eq_true, Bool.not_eq_true] at hfin
    obtain ⟨hpoint, hval⟩ := ofProduct_of_infinite hc ha hfin hcne hane
    rw [hpoint]
    exact hval ▸ mul_nonneg hc0 ha0

/-! ## The chain -/

/-- **The chain rounded down** is non-negative as long as no product vanishes, and afterwards stays
at the negative float next to zero. -/
theorem powerBelow_cases (ha : IsNumber a) (ha0 : 0 ≤ value a) (n : ℕ) :
    IsNumber (powerBelow a n) ∧
      ((∀ k < n, productVanishes (powerBelow a k) a = false) ∧ 0 ≤ value (powerBelow a n) ∨
        (∃ k < n, productVanishes (powerBelow a k) a = true) ∧ a.isFinite = true ∧ 0 < real a ∧
          real a ≤ 1 / 2 ∧
          value (powerBelow a n) = ((-(2 : ℝ) ^ (-1074 : ℤ) : ℝ) : EReal)) := by
  have hhalf : underflowError = (2 : ℝ) ^ (-1074 : ℤ) * (1 / 2) := by
    rw [← half_least_eq, div_eq_mul_one_div]
  have hunit := zpow_two_pos (-1074)
  induction n with
  | zero =>
    refine ⟨one_isNumber, .inl ⟨fun k hk => absurd hk (Nat.not_lt_zero k), ?_⟩⟩
    exact value_one ▸ EReal.coe_nonneg.mpr zero_le_one
  | succ n ih =>
    obtain ⟨hnum, hcase⟩ := ih
    rw [powerBelow_succ]
    refine ⟨(ofProduct_brackets hnum ha).1, ?_⟩
    rcases hcase with ⟨hkept, hpos⟩ | ⟨⟨k, hk, hvanish⟩, hafin, hapos, hale, hval⟩
    · rcases Bool.eq_false_or_eq_true (productVanishes (powerBelow a n) a) with hv | hv
      · -- the first product that vanishes: its first factor is at least the least positive float
        obtain ⟨hcfin, hafin, hcpos, hapos, hle⟩ := productVanishes_spec hv
        have hleast := zpow_le_real_of_pos hcfin hcpos
        have hale : real a ≤ 1 / 2 := by
          have hmul := (mul_le_mul_of_nonneg_right hleast hapos.le).trans hle
          rw [hhalf] at hmul
          exact le_of_mul_le_mul_left hmul hunit
        refine .inr ⟨⟨n, Nat.lt_succ_self n, hv⟩, hafin, hapos, hale, ?_⟩
        refine ofProduct_lo_of_underflow hcfin hafin hcpos.ne' hapos.ne' ?_
        rwa [abs_of_pos (mul_pos hcpos hapos)]
      · refine .inl ⟨fun k hk => ?_, ofProduct_lo_nonneg hnum ha hpos ha0 hv⟩
        rcases Nat.lt_succ_iff_lt_or_eq.mp hk with hlt | rfl
        · exact hkept k hlt
        · exact hv
    · -- at the negative float next to zero each further product underflows
      have hcfin := isFinite_of_value hnum hval
      have hcreal := real_eq_of_value hval
      refine .inr ⟨⟨k, hk.trans (Nat.lt_succ_self n), hvanish⟩, hafin, hapos, hale, ?_⟩
      refine ofProduct_lo_of_underflow hcfin hafin ?_ hapos.ne' ?_
      · rw [hcreal]
        exact neg_ne_zero.mpr hunit.ne'
      · rw [hcreal, neg_mul, abs_neg, abs_of_pos (mul_pos hunit hapos), hhalf]
        exact mul_le_mul_of_nonneg_left hale hunit.le

/-! ## Even powers -/

theorem abs_lo_isNumber (hX : X.HasNumbers) : IsNumber X.abs.lo := by
  unfold Interval.abs
  split_ifs
  · exact hX.1
  · exact isNumber_neg hX.2
  · exact zero_isNumber

/-- An even power goes from chain to chain, also for the exponent zero. -/
theorem evenPower_def (X : Interval) (hn : Even n) :
    X.integerPower n = ⟨powerBelow X.abs.lo n, powerAbove X.abs.hi n⟩ := by
  have hdef : X ^ n = X.power n := rfl
  rw [integerPower_natCast, hdef, power]
  rcases Nat.eq_zero_or_pos n with rfl | hpos
  · rfl
  · rw [if_neg hpos.ne', if_pos (Nat.even_iff.mp hn)]

/-- **The lower end of an even power** is not negative exactly when no product of its chain vanishes.
Otherwise it is the negative float next to zero, and this does not happen to an interval that holds
zero or nothing up to one half in size. -/
theorem evenPower_lo_spec (hX : X.lo ≤ X.hi) (hn : Even n) :
    (0 ≤ (X.integerPower n).lo
        ↔ ∀ k < n, productVanishes (powerBelow X.abs.lo k) X.abs.lo = false) ∧
      (¬0 ≤ (X.integerPower n).lo →
        value (X.integerPower n).lo = ((-(2 : ℝ) ^ (-1074 : ℤ) : ℝ) : EReal)) ∧
      ((0 : ℝ) ∈ X ∨ 0.5 < X.abs.lo → 0 ≤ (X.integerPower n).lo) := by
  have hnum : X.HasNumbers := ⟨(le_iff.mp hX).1, (le_iff.mp hX).2.1⟩
  have hlo := abs_lo_isNumber hnum
  obtain ⟨hpnum, hcase⟩ := powerBelow_cases hlo (abs_lo_nonneg hnum) n
  rw [evenPower_def X hn, mk_lo]
  have hsign : 0 ≤ powerBelow X.abs.lo n ↔ 0 ≤ value (powerBelow X.abs.lo n) := nonneg_iff hpnum
  rw [hsign]
  rcases hcase with ⟨hkept, hpos⟩ | ⟨⟨k, hk, hvanish⟩, hfin, hapos, hale, hval⟩
  · exact ⟨iff_of_true hpos hkept, fun h => absurd hpos h, fun _ => hpos⟩
  · have hneg : ¬0 ≤ value (powerBelow X.abs.lo n) := by
      rw [hval, EReal.coe_nonneg]
      linarith [zpow_two_pos (-1074)]
    refine ⟨iff_of_false hneg fun h => ?_, fun _ => hval, ?_⟩
    · exact absurd (hvanish.symm.trans (h k hk)) (by decide)
    · rintro (hzero | hlarge)
      · have hmem := (abs_mem hzero).2.2.1
        rw [abs_zero, ← coe_real hfin, EReal.coe_le_coe_iff] at hmem
        exact absurd hmem (not_le.mpr hapos)
      · have hlt := (lt_iff_real_lt half_spec.1 hfin).mp hlarge
        rw [half_spec.2] at hlt
        exact absurd hale (not_le.mpr hlt)

/-- The square of `[-3, 2]` has no negative member. -/
theorem evenPower_lo_spec_square : 0 ≤ ((⟨-3, 2⟩ : Interval).integerPower (2 : ℕ)).lo := by
  refine (evenPower_lo_spec (X := ⟨-3, 2⟩) (n := 2) (by decide +kernel) even_two).2.2 (.inl ?_)
  rw [zero_mem_iff ⟨by decide +kernel, by decide +kernel⟩]
  decide +kernel

/-- **An even power that dips below zero**: the square of `2 ^ -600`. -/
theorem evenPower_lo_dips :
    ¬∀ (X : Interval) (n : ℕ), X.lo ≤ X.hi → Even n → 0 ≤ (X.integerPower n).lo := fun h =>
  absurd (h (point (.ofBits 0x1A70000000000000)) 2 (by decide +kernel) even_two)
    (by decide +kernel)

end CertifiedZeros.Interval
