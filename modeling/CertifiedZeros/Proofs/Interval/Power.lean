import CertifiedZeros.Interval.Power
import CertifiedZeros.Proofs.Interval.Arithmetic

/-! # What interval powers enclose

Both chains of products are followed by induction on the exponent. The chain that is rounded down
may fall below zero in an underflow; its invariant is only that it stays below the exact power.

* **`powerAbove_spec`**, **`powerBelow_spec`** — the two chains.
* **`power_mem`** — the powers of members belong to the interval power. -/

namespace CertifiedZeros.Interval

open Binary64

variable {X : Interval} {x r : ℝ}

theorem one_isNumber : IsNumber (1 : Float) := by decide

theorem one_mem : (1 : ℝ) ∈ (1 : Interval) :=
  ⟨one_isNumber, one_isNumber, value_one.le, value_one.ge⟩

theorem powerAbove_succ (x : Float) (n : ℕ) :
    powerAbove x (n + 1) = (ofProduct (powerAbove x n) x).hi := rfl

theorem powerBelow_succ (x : Float) (n : ℕ) :
    powerBelow x (n + 1) = (ofProduct (powerBelow x n) x).lo := rfl

/-- **The chain rounded up** stays above the powers of every smaller number that is not negative. -/
theorem powerAbove_spec {a : Float} (ha : IsNumber a) (h0 : 0 ≤ r) (hr : (r : EReal) ≤ value a)
    (n : ℕ) : IsNumber (powerAbove a n) ∧ ((r ^ n : ℝ) : EReal) ≤ value (powerAbove a n) := by
  induction n with
  | zero => exact ⟨one_isNumber, by rw [pow_zero]; exact value_one.ge⟩
  | succ n ih =>
    obtain ⟨hnum, hle⟩ := ih
    have hprod := ofProduct_brackets hnum ha
    rw [powerAbove_succ]
    refine ⟨hprod.2.1, le_trans ?_ hprod.2.2.2⟩
    have hpow : (0 : EReal) ≤ ((r ^ n : ℝ) : EReal) := by exact_mod_cast pow_nonneg h0 n
    rw [pow_succ, EReal.coe_mul]
    exact mul_le_mul hle hr (by exact_mod_cast h0) (hpow.trans hle)

/-- **The chain rounded down** stays below the powers of every greater number. -/
theorem powerBelow_spec {a : Float} (ha : IsNumber a) (h0 : 0 ≤ value a) (hr : value a ≤ (r : EReal))
    (n : ℕ) : IsNumber (powerBelow a n) ∧ value (powerBelow a n) ≤ ((r ^ n : ℝ) : EReal) := by
  have hr0 : 0 ≤ r := by exact_mod_cast h0.trans hr
  induction n with
  | zero => exact ⟨one_isNumber, by rw [pow_zero]; exact value_one.le⟩
  | succ n ih =>
    obtain ⟨hnum, hle⟩ := ih
    have hprod := ofProduct_brackets hnum ha
    have hpow : (0 : EReal) ≤ ((r ^ n : ℝ) : EReal) := by exact_mod_cast pow_nonneg hr0 n
    rw [powerBelow_succ]
    refine ⟨hprod.1, hprod.2.2.1.trans ?_⟩
    rw [pow_succ, EReal.coe_mul]
    rcases le_total 0 (value (powerBelow a n)) with hpos | hneg
    · exact mul_le_mul hle hr h0 hpow
    · -- the chain has fallen below zero, and stays there
      exact (EReal.mul_nonpos_iff.mpr (.inr ⟨hneg, h0⟩)).trans
        (EReal.mul_nonneg hpow (by exact_mod_cast hr0))

/-- The lower end of an odd power. -/
theorem oddPower_lo_spec {n : ℕ} (hn : Odd n) (hx : x ∈ X) :
    IsNumber (if X.lo ≥ 0 then powerBelow X.lo n else -powerAbove (-X.lo) n) ∧
      value (if X.lo ≥ 0 then powerBelow X.lo n else -powerAbove (-X.lo) n)
        ≤ ((x ^ n : ℝ) : EReal) := by
  obtain ⟨hXl, -, hxl, -⟩ := mem_iff.mp hx
  split_ifs with hpos
  · exact powerBelow_spec hXl ((nonneg_iff hXl).mp hpos) hxl n
  · have hlo : ((max 0 (-x) : ℝ) : EReal) ≤ value (-X.lo) := by
      rw [nonneg_iff hXl, not_le] at hpos
      rw [value_neg hXl]
      rcases max_choice 0 (-x) with h | h <;> rw [h]
      · exact EReal.neg_nonneg.mpr hpos.le
      · rw [EReal.coe_neg]
        exact EReal.neg_le_neg_iff.mpr hxl
    obtain ⟨hnum, hle⟩ := powerAbove_spec (isNumber_neg hXl) (le_max_left 0 (-x)) hlo n
    have hmono : (-x) ^ n ≤ (max 0 (-x)) ^ n := hn.strictMono_pow.monotone (le_max_right _ _)
    rw [hn.neg_pow] at hmono
    refine ⟨isNumber_neg hnum, ?_⟩
    rw [value_neg hnum, EReal.neg_le, ← EReal.coe_neg]
    exact (EReal.coe_le_coe_iff.mpr hmono).trans hle

/-- The upper end of an odd power. -/
theorem oddPower_hi_spec {n : ℕ} (hn : Odd n) (hx : x ∈ X) :
    IsNumber (if X.hi ≥ 0 then powerAbove X.hi n else -powerBelow (-X.hi) n) ∧
      ((x ^ n : ℝ) : EReal)
        ≤ value (if X.hi ≥ 0 then powerAbove X.hi n else -powerBelow (-X.hi) n) := by
  obtain ⟨-, hXh, -, hxh⟩ := mem_iff.mp hx
  split_ifs with hpos
  · have hhi : ((max 0 x : ℝ) : EReal) ≤ value X.hi := by
      rcases max_choice 0 x with h | h <;> rw [h]
      · exact (nonneg_iff hXh).mp hpos
      · exact hxh
    obtain ⟨hnum, hle⟩ := powerAbove_spec hXh (le_max_left 0 x) hhi n
    have hmono : x ^ n ≤ (max 0 x) ^ n := hn.strictMono_pow.monotone (le_max_right _ _)
    exact ⟨hnum, (EReal.coe_le_coe_iff.mpr hmono).trans hle⟩
  · rw [nonneg_iff hXh, not_le] at hpos
    have hval := value_neg hXh
    have hlo : 0 ≤ value (-X.hi) := by
      rw [hval]
      exact EReal.neg_nonneg.mpr hpos.le
    have hle : value (-X.hi) ≤ ((-x : ℝ) : EReal) := by
      rw [hval, EReal.coe_neg]
      exact EReal.neg_le_neg_iff.mpr hxh
    obtain ⟨hnum, hpow⟩ := powerBelow_spec (isNumber_neg hXh) hlo hle n
    rw [hn.neg_pow, EReal.coe_neg] at hpow
    refine ⟨isNumber_neg hnum, ?_⟩
    rw [value_neg hnum, EReal.le_neg]
    exact hpow

/-- **A power of a member is enclosed**, for every natural exponent. -/
theorem power_mem (hx : x ∈ X) (n : ℕ) : x ^ n ∈ X ^ n := by
  change x ^ n ∈ X.power n
  unfold power
  by_cases h0 : n = 0
  · rw [if_pos h0, h0, pow_zero]
    exact one_mem
  rw [if_neg h0]
  by_cases heven : n % 2 = 0
  · have habs := abs_mem hx
    obtain ⟨hnum, hlo, hhi⟩ := brackets_iff.mp habs
    have hpow : |x| ^ n = x ^ n := (Nat.even_iff.mpr heven).pow_abs x
    obtain ⟨hbn, hbelow⟩ :=
      powerBelow_spec hnum.1 (abs_lo_nonneg (Brackets.hasNumbers hx)) hlo n
    obtain ⟨han, habove⟩ := powerAbove_spec hnum.2 (abs_nonneg x) hhi n
    rw [hpow] at hbelow habove
    rw [if_pos heven, mem_iff, mk_lo, mk_hi]
    exact ⟨hbn, han, hbelow, habove⟩
  · have hodd : Odd n := Nat.odd_iff.mpr (by omega)
    obtain ⟨hln, hlower⟩ := oddPower_lo_spec hodd hx
    obtain ⟨hhn, hupper⟩ := oddPower_hi_spec hodd hx
    rw [if_neg heven, mem_iff, mk_lo, mk_hi]
    exact ⟨hln, hhn, hlower, hupper⟩

/-- A natural exponent takes no reciprocal. -/
theorem integerPower_natCast (X : Interval) (n : ℕ) : X.integerPower n = X ^ n := by
  unfold integerPower
  rw [Int.natAbs_natCast, if_neg (by omega)]

end CertifiedZeros.Interval
