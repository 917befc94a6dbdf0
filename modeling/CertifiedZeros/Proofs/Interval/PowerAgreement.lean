import CertifiedZeros.PhaseNorm
import CertifiedZeros.Proofs.Binary64.RepeatedSquaring
import CertifiedZeros.Proofs.Interval.EvenPower
import CertifiedZeros.Proofs.Interval.Monotone

/-! # Float powers against interval powers

A float power is computed by repeated squaring, an interval power by one product after the other.
Up to the third power both multiply in the same way, and rounding to nearest stays between rounding
down and rounding up. From the fourth power on the two orders differ: the interval encloses the exact
power, and the float one is near it without having to lie inside.

* **`successive t n`** — the power by rounded products in the order of the interval power.
* **`successive_mem`** — it belongs to the interval power of the point, for every exponent.
* **`power_eq_successive`** — up to the third power this is the float power.
* **`power_agreement`** — what float powers and interval powers have in common.
* **`power_not_mem`** — a fourth power outside its interval. -/

namespace CertifiedZeros.Interval

open Binary64 PhaseNorm

variable {t : ℝ} {a b x : Float} {n : ℕ}

/-! ## Successive products -/

/-- **The power by successive products**, each of them rounded. -/
noncomputable def successive (t : ℝ) : ℕ → ℝ
  | 0 => 1
  | n + 1 => rounded (successive t n * t)

theorem successive_neg (t : ℝ) (n : ℕ) : successive (-t) n = (-1) ^ n * successive t n := by
  induction n with
  | zero => simp [successive]
  | succ n ih =>
    rw [successive, successive, ih, pow_succ]
    rcases neg_one_pow_eq_or ℝ n with h | h <;> rw [h]
    · rw [one_mul, one_mul, mul_neg, rounded_neg, neg_one_mul]
    · rw [neg_one_mul, neg_mul_neg, neg_mul_neg, one_mul, one_mul]

/-- **The rounded product lies between the two ends** of its interval. -/
theorem mul_between (ha : a.isFinite = true) (hb : b.isFinite = true) :
    value (ofProduct a b).lo ≤ clamp (rounded (real a * real b)) ∧
      clamp (rounded (real a * real b)) ≤ value (ofProduct a b).hi := by
  refine ⟨(mul_spec ha hb).2 ▸ (ofProduct_lo_le_mul ha hb).1, ?_⟩
  obtain ⟨hnegfin, hneg⟩ := neg_finite ha
  have hopposite := (ofProduct_lo_le_mul hnegfin hb).1
  rw [ofProduct_neg_lo, (mul_spec hnegfin hb).2, hneg, neg_mul, rounded_neg, clamp_neg,
    EReal.neg_le_neg_iff] at hopposite
  exact hopposite

/-- A finite number that is not above a clamped one is not above that one. -/
theorem le_of_coe_le_clamp {r s : ℝ} (hr : |r| < limit) (h : (r : EReal) ≤ clamp s) : r ≤ s := by
  by_contra hlt
  have hle := clamp_mono (not_le.mp hlt).le
  rw [clamp_of_lt hr] at hle
  exact hlt (clamp_eq_coe (le_antisymm hle h)).ge

theorem le_of_clamp_le_coe {r s : ℝ} (hr : |r| < limit) (h : clamp s ≤ (r : EReal)) : s ≤ r := by
  by_contra hlt
  have hle := clamp_mono (not_le.mp hlt).le
  rw [clamp_of_lt hr] at hle
  exact hlt (clamp_eq_coe (le_antisymm h hle)).le

/-- The chain rounded down does not overflow. -/
theorem isFinite_powerBelow (ha : a.isFinite = true) (h0 : 0 ≤ real a) (n : ℕ) :
    (powerBelow a n).isFinite = true := by
  have hanum := isNumber_of_isFinite ha
  have ha0 : 0 ≤ value a := coe_real ha ▸ EReal.coe_nonneg.mpr h0
  have hupper := (powerBelow_spec hanum ha0 (coe_real ha).ge n).2
  obtain ⟨hnum, ⟨-, hlower⟩ | ⟨-, -, -, -, hlower⟩⟩ := powerBelow_cases hanum ha0 n
  · exact isFinite_of_between hnum hlower hupper
  · exact isFinite_of_between hnum hlower.ge hupper

theorem clamp_one : clamp 1 = value (1 : Float) := by
  rw [← real_one, clamp_of_lt (abs_real_lt isFinite_one), coe_real isFinite_one]

/-- **The chain rounded down** stays below the successive products of its base. -/
theorem powerBelow_le_successive (ha : a.isFinite = true) (h0 : 0 ≤ real a) (n : ℕ) :
    value (powerBelow a n) ≤ clamp (successive (real a) n) := by
  induction n with
  | zero => exact clamp_one.ge
  | succ n ih =>
    have hfin := isFinite_powerBelow ha h0 n
    rw [← coe_real hfin] at ih
    have hle := le_of_coe_le_clamp (abs_real_lt hfin) ih
    rw [powerBelow_succ, successive]
    exact (mul_between hfin ha).1.trans
      (clamp_mono (rounded_mono (mul_le_mul_of_nonneg_right hle h0)))

/-- **The chain rounded up** stays above the successive products of its base. -/
theorem successive_le_powerAbove (ha : a.isFinite = true) (h0 : 0 ≤ real a) (n : ℕ) :
    clamp (successive (real a) n) ≤ value (powerAbove a n) := by
  induction n with
  | zero => exact clamp_one.le
  | succ n ih =>
    have hanum := isNumber_of_isFinite ha
    obtain ⟨hnum, hpow⟩ := powerAbove_spec hanum h0 (coe_real ha).le n
    rw [powerAbove_succ, successive]
    rcases hnum.cases with hfin | ⟨hinf, hval⟩
    · rw [← coe_real hfin] at ih
      have hle := le_of_clamp_le_coe (abs_real_lt hfin) ih
      exact (clamp_mono (rounded_mono (mul_le_mul_of_nonneg_right hle h0))).trans
        (mul_between hfin ha).2
    · -- a chain that has overflowed stays there, unless the base is zero
      rcases h0.eq_or_lt with hzero | hpos
      · have hbase : (a == 0) = true := by
          rw [beq_zero_iff hanum, ← coe_real ha, ← hzero, EReal.coe_zero]
        rw [← hzero, mul_zero, clamp_rounded_zero, ofProduct, hbase, Bool.or_true, if_pos rfl]
        exact value_zero.ge
      · have htop : value (powerAbove a n) = ⊤ := by
          refine hval.resolve_right fun hbot => ?_
          rw [hbot] at hpow
          exact absurd hpow (not_le.mpr (EReal.bot_lt_coe _))
        have hbase : 0 < value a := coe_real ha ▸ EReal.coe_pos.mpr hpos
        obtain ⟨hpoint, hprod⟩ := ofProduct_of_infinite hnum hanum (.inl hinf)
          (by rw [htop]; exact EReal.top_ne_zero) hbase.ne'
        rw [htop, EReal.top_mul_of_pos hbase] at hprod
        rw [hpoint, point, hprod]
        exact le_top

/-! ## Powers of a point -/

/-- The absolute value of a point is a point. -/
theorem abs_point (hx : x.isFinite = true) :
    ∃ a : Float, a.isFinite = true ∧ real a = |real x| ∧ (point x).abs = point a := by
  have hnum := isNumber_of_isFinite hx
  have hsign : x ≥ 0 ↔ 0 ≤ real x := by
    rw [nonneg_iff hnum, ← coe_real hx, EReal.coe_nonneg]
  rcases le_total 0 (real x) with h | h
  · exact ⟨x, hx, (abs_of_nonneg h).symm, if_pos (hsign.mpr h)⟩
  · by_cases hpos : x ≥ 0
    · exact ⟨x, hx, (abs_of_nonneg (hsign.mp hpos)).symm, if_pos hpos⟩
    · have hneg : x ≤ 0 := (nonpos_iff hnum).mpr (coe_real hx ▸ EReal.coe_nonpos.mpr h)
      refine ⟨-x, (neg_finite hx).1, by rw [(neg_finite hx).2, abs_of_nonpos h], ?_⟩
      exact (if_neg hpos).trans (if_pos hneg)

/-- An odd power of a point, by the sign of its number. -/
theorem oddPower_point (x : Float) (hn : Odd n) :
    (point x).integerPower n =
      ⟨if x ≥ 0 then powerBelow x n else -powerAbove (-x) n,
        if x ≥ 0 then powerAbove x n else -powerBelow (-x) n⟩ := by
  have hdef : point x ^ n = (point x).power n := rfl
  have hmod := Nat.odd_iff.mp hn
  rw [integerPower_natCast, hdef, power, if_neg (by omega), if_neg (by omega)]
  rfl

/-- **Successive products belong to the interval power of the point**, as long as they do not
overflow in the end. -/
theorem successive_mem (hx : x.isFinite = true) (hlt : |successive (real x) n| < limit) :
    successive (real x) n ∈ (point x).integerPower n := by
  rcases Nat.even_or_odd n with heven | hodd
  · -- an even power is one of the absolute value, also for successive products
    obtain ⟨a, ha, hreal, hpoint⟩ := abs_point hx
    have h0 : 0 ≤ real a := hreal ▸ abs_nonneg _
    have hsame : successive (real a) n = successive (real x) n := by
      rcases abs_choice (real x) with h | h <;> rw [hreal, h]
      rw [successive_neg, heven.neg_one_pow, one_mul]
    have hlower := powerBelow_le_successive ha h0 n
    have hupper := successive_le_powerAbove ha h0 n
    rw [hsame, clamp_of_lt hlt] at hlower hupper
    rw [evenPower_def _ heven, hpoint]
    exact ⟨isNumber_of_isFinite (isFinite_powerBelow ha h0 n),
      (powerAbove_spec (isNumber_of_isFinite ha) h0 (coe_real ha).le n).1, hlower, hupper⟩
  · rw [oddPower_point _ hodd]
    by_cases hpos : x ≥ 0
    · have h0 : 0 ≤ real x := real_nonneg hpos hx
      have hlower := powerBelow_le_successive hx h0 n
      have hupper := successive_le_powerAbove hx h0 n
      rw [clamp_of_lt hlt] at hlower hupper
      rw [if_pos hpos, if_pos hpos]
      exact ⟨isNumber_of_isFinite (isFinite_powerBelow hx h0 n),
        (powerAbove_spec (isNumber_of_isFinite hx) h0 (coe_real hx).le n).1, hlower, hupper⟩
    · -- below zero the chains of the opposite number stand for each other's ends
      obtain ⟨hnegfin, hneg⟩ := neg_finite hx
      have h0 : 0 ≤ real (-x) := by
        rw [hneg, neg_nonneg]
        by_contra hgt
        refine hpos (nonneg_of_value (isNumber_of_isFinite hx) ?_)
        exact coe_real hx ▸ EReal.coe_nonneg.mpr (not_le.mp hgt).le
      have hopposite : successive (real (-x)) n = -successive (real x) n := by
        rw [hneg, successive_neg, hodd.neg_one_pow, neg_one_mul]
      have hlower := powerBelow_le_successive hnegfin h0 n
      have hupper := successive_le_powerAbove hnegfin h0 n
      have hbelow := isNumber_of_isFinite (isFinite_powerBelow hnegfin h0 n)
      have habove := (powerAbove_spec (isNumber_of_isFinite hnegfin) h0 (coe_real hnegfin).le n).1
      rw [hopposite, clamp_neg, clamp_of_lt hlt] at hlower hupper
      rw [if_neg hpos, if_neg hpos]
      refine ⟨isNumber_neg habove, isNumber_neg hbelow, ?_, ?_⟩
      · rw [mk_lo, value_neg habove]
        exact EReal.neg_le.mp hupper
      · rw [mk_hi, value_neg hbelow]
        exact EReal.le_neg.mp hlower

/-! ## Float powers -/

/-- **Up to the third power** repeated squaring multiplies successively, up to the order of two
factors. -/
theorem power_eq_successive (hx : x.isFinite = true) (hn : n ≤ 3) (h : (x ^ n).isFinite = true) :
    real (x ^ n) = successive (real x) n := by
  -- both begin with a product by one, which is exact
  have hbase : rounded (1 * real x) = real x := by
    rw [one_mul, rounded_eq (representable_real hx)]
  interval_cases n
  · rw [float_pow_zero, real_one, successive]
  · rw [float_pow_one] at h ⊢
    rw [real_mul h, real_one, successive, successive]
  · rw [float_pow_two] at h ⊢
    rw [real_one_mul h, real_mul (isFinite_of_mul h).2, successive, successive, successive, hbase]
  · rw [float_pow_three] at h ⊢
    obtain ⟨hfirst, hsquare⟩ := isFinite_of_mul h
    rw [real_mul h, real_one_mul hfirst, real_mul hsquare, successive, successive, successive,
      successive, hbase, mul_comm]

/-- **A power that multiplies successively or without an error** belongs to its interval. -/
theorem power_mem_point (hx : x.isFinite = true) (h : (x ^ n).isFinite = true)
    (hn : n ≤ 3 ∨ real (x ^ n) = real x ^ n) : real (x ^ n) ∈ (point x).integerPower n := by
  rcases hn with hle | hexact
  · have hsame := power_eq_successive hx hle h
    rw [hsame]
    exact successive_mem hx (hsame ▸ abs_real_lt h)
  · rw [hexact, integerPower_natCast]
    exact power_mem (mem_point hx) n

/-! ## Weights -/

/-- **The interval weight of a point** holds the double of whatever its power holds. -/
theorem two_mul_mem_cosineWeight {r : ℝ} (hn : n ≠ 0) (h : r ∈ (point x).integerPower n) :
    2 * r ∈ cosineWeight (point x) n := by
  have hdef : cosineWeight (point x) n = ((2 : ℕ) : Interval) * point x ^ n := if_neg hn
  have htwo : (2 : ℝ) ∈ ((2 : ℕ) : Interval) := by
    exact_mod_cast count_mem (n := 2) (by norm_num)
  rw [integerPower_natCast] at h
  rw [hdef]
  exact mul_mem htwo h

/-- **Float powers and interval powers.** A float power without overflow belongs to the interval power
of the point up to the third, and whenever it is exact. For every exponent the interval holds the
exact power, and the float one is near that. The same holds for the weights of the cosine norm. -/
theorem power_agreement (hx : x.isFinite = true) (h : (x ^ n).isFinite = true) :
    (n ≤ 3 ∨ real (x ^ n) = real x ^ n → real (x ^ n) ∈ (point x).integerPower n) ∧
      real x ^ n ∈ (point x).integerPower n ∧
      |real (x ^ n) - real x ^ n| ≤ powerError (real x) n ∧
      ((cosineWeight x n).isFinite = true →
        (n ≤ 3 ∨ real (x ^ n) = real x ^ n →
            real (cosineWeight x n) ∈ cosineWeight (point x) n) ∧
          cosineWeight (real x) n ∈ cosineWeight (point x) n ∧
          |real (cosineWeight x n) - cosineWeight (real x) n| ≤ 2 * powerError (real x) n) := by
  have hexact : real x ^ n ∈ (point x).integerPower n := by
    rw [integerPower_natCast]
    exact power_mem (mem_point hx) n
  have hnear := abs_power_sub_le h
  refine ⟨power_mem_point hx h, hexact, hnear, fun hweight => ?_⟩
  rcases eq_or_ne n 0 with rfl | hn
  · have hone : real (cosineWeight x 0) = 1 ∧ cosineWeight (real x) 0 = 1 := ⟨real_one, rfl⟩
    have hmem : (1 : ℝ) ∈ cosineWeight (point x) 0 := one_mem
    rw [hone.1, hone.2, sub_self, abs_zero]
    exact ⟨fun _ => hmem, hmem, mul_nonneg zero_le_two ((abs_nonneg _).trans hnear)⟩
  · have hreal := (real_cosineWeight hn hweight).2
    have hdef : cosineWeight (real x) n = 2 * real x ^ n := by
      rw [cosineWeight, if_neg hn, Nat.cast_ofNat]
    rw [hreal, hdef, ← mul_sub, abs_mul, abs_two]
    exact ⟨fun hcase => two_mul_mem_cosineWeight hn (power_mem_point hx h hcase),
      two_mul_mem_cosineWeight hn hexact, mul_le_mul_of_nonneg_left hnear zero_le_two⟩

/-- The third power of three, and the third weight of that ratio, belong to their intervals. -/
theorem power_agreement_three :
    real ((3 : Float) ^ 3) ∈ (point 3).integerPower (3 : ℕ) ∧
      real (cosineWeight (3 : Float) 3) ∈ cosineWeight (point 3) 3 := by
  have hfin : ((3 : Float) ^ 3).isFinite = true := by
    rw [float_pow_three]
    decide +kernel
  have hweight : (cosineWeight (3 : Float) 3).isFinite = true := by
    rw [cosineWeight, if_neg (by decide), float_pow_three]
    decide +kernel
  have h := power_agreement (x := 3) (n := 3) (by decide) hfin
  exact ⟨h.1 (.inl le_rfl), (h.2.2.2 hweight).1 (.inl le_rfl)⟩

/-- **A fourth power outside its interval**: repeated squaring rounds `1.1886` up beyond the chain of
products. -/
theorem power_not_mem :
    ¬∀ (x : Float) (n : ℕ), x.isFinite = true → (x ^ n).isFinite = true →
      real (x ^ n) ∈ (point x).integerPower n := fun h => by
  have hfin : (Float.ofBits 0x3FF304816F0068DC ^ 4).isFinite = true := by
    rw [float_pow_four]
    decide +kernel
  have hbeyond : ((point (.ofBits 0x3FF304816F0068DC)).integerPower (4 : ℕ)).hi
      < Float.ofBits 0x3FF304816F0068DC ^ 4 := by
    rw [float_pow_four]
    decide +kernel
  have hmem := (h (.ofBits 0x3FF304816F0068DC) 4 (by decide +kernel) hfin).2.2.2
  rw [coe_real hfin] at hmem
  exact absurd (lt_iff.mp hbeyond).2.2 (not_lt.mpr hmem)

end CertifiedZeros.Interval
