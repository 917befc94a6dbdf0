import CertifiedZeros.Proofs.Binary64.Value

/-! # Rounding an extended mantissa

Every operation that rounds first computes a significand with two more bits, the round bit and the
sticky bit, shifts it to its last place, and rounds there. What the bits know of the exact number:

* **`Holds em x`** — `em` has the integer part of `x`, and its bits say how the rest compares with
  a half. A shift by one place halves `x` (`Holds.shiftRightOne`), and rounding takes the nearest
  integer (`Holds.roundedMantissa_eq`).
* **`value_roundWithAccuracy`** — rounding a held number to the format is `rounded`, and packing
  the result is `clamp`.
* **`value_normalize`** — the same for an exact significand at any exponent. -/

namespace CertifiedZeros.Binary64

open Float.Model (UnpackedFloat totalExponent)
open Float.Model.Format (binary64)
open Float.Model.UnpackedFloat

/-! ## What the residual bits say -/

/-- **`em` holds the number `x`**: its mantissa is the integer part, the round bit a half, and the
sticky bit says whether anything remains below. -/
def Holds (em : ExtendedMantissa) (x : ℝ) : Prop :=
  ∃ f : ℝ, 0 ≤ f ∧ f < 1 / 2 ∧ (em.stickyBit = true ↔ f ≠ 0) ∧
    x = em.mantissa + (if em.roundBit then 1 / 2 else 0) + f

namespace Holds

variable {em : ExtendedMantissa} {x : ℝ}

theorem exact (m : ℕ) : Holds (.ofMantissaAndAccuracy m .exact) m :=
  ⟨0, le_rfl, by norm_num, by simp [ExtendedMantissa.ofMantissaAndAccuracy],
    by simp [ExtendedMantissa.ofMantissaAndAccuracy]⟩

theorem mantissa_le (h : Holds em x) : (em.mantissa : ℝ) ≤ x := by
  obtain ⟨f, h0, -, -, rfl⟩ := h
  split_ifs <;> linarith

theorem lt_mantissa_add_one (h : Holds em x) : x < em.mantissa + 1 := by
  obtain ⟨f, -, h1, -, rfl⟩ := h
  split_ifs <;> linarith

/-- **A shift by one place halves the number**: the lowest bit of the mantissa becomes the round
bit, and the old residual bits are joined below it. -/
theorem shiftRightOne (h : Holds em x) : Holds em.shiftRightOne (x / 2) := by
  obtain ⟨f, h0, h1, hs, rfl⟩ := h
  have hmod : (em.mantissa : ℝ) = 2 * (em.mantissa / 2 : ℕ) + (em.mantissa % 2 : ℕ) := by
    exact_mod_cast (Nat.div_add_mod em.mantissa 2).symm
  refine ⟨((if em.roundBit then 1 / 2 else 0) + f) / 2, ?_, ?_, ?_, ?_⟩
  · split_ifs <;> linarith
  · split_ifs <;> linarith
  · cases hr : em.roundBit
    · simp [ExtendedMantissa.shiftRightOne, hr, hs]
    · simp only [ExtendedMantissa.shiftRightOne, hr, Bool.true_or, if_true, true_iff]
      linarith
  · rw [hmod]
    rcases Nat.mod_two_eq_zero_or_one em.mantissa with hbit | hbit
    · simp only [ExtendedMantissa.shiftRightOne, hbit]
      norm_num
      ring
    · simp only [ExtendedMantissa.shiftRightOne, hbit]
      norm_num
      ring

theorem shiftRight (h : Holds em x) (n : ℕ) : Holds (em >>> n) (x / 2 ^ n) := by
  change Holds (n.repeat ExtendedMantissa.shiftRightOne em) (x / 2 ^ n)
  induction n with
  | zero => simpa [Nat.repeat] using h
  | succ n ih =>
    rw [pow_succ, ← div_div]
    exact ih.shiftRightOne

/-- **Rounding takes the nearest integer.** -/
theorem roundedMantissa_eq (h : Holds em x) : (em.roundedMantissa : ℤ) = nearestInteger x := by
  obtain ⟨f, h0, h1, hs, rfl⟩ := h
  obtain ⟨m, r, s⟩ := em
  have hf : s = false → f = 0 := fun hs' => by
    by_contra hne
    exact absurd (hs.mpr hne) (by simp [hs'])
  symm
  cases r <;> cases s <;>
    simp only [ExtendedMantissa.roundedMantissa, ExtendedMantissa.accuracy,
      Accuracy.roundToNearestEven, if_true, if_false, Bool.false_eq_true] at hs hf ⊢
  · rw [hf trivial]
    simpa using nearestInteger_intCast m
  · refine nearestInteger_eq ?_ fun htie => ?_
    · push_cast
      rw [abs_le]
      constructor <;> linarith
    · push_cast at htie
      rw [show (m : ℝ) + 0 + f - m = f by ring, abs_of_nonneg h0] at htie
      linarith
  · rw [hf trivial]
    rcases Nat.mod_two_eq_zero_or_one m with hbit | hbit
    · rw [hbit]
      refine nearestInteger_eq ?_ fun _ => ?_
      · push_cast
        rw [abs_le]
        constructor <;> linarith
      · exact_mod_cast Nat.even_iff.mpr hbit
    · rw [hbit]
      refine nearestInteger_eq ?_ fun _ => ?_
      · push_cast
        rw [abs_le]
        constructor <;> linarith
      · exact_mod_cast Nat.even_iff.mpr (by omega : (m + 1) % 2 = 0)
  · have hpos : f ≠ 0 := hs.mp trivial
    have hpos' : 0 < f := lt_of_le_of_ne h0 hpos.symm
    refine nearestInteger_eq ?_ fun htie => ?_
    · push_cast
      rw [abs_le]
      constructor <;> linarith
    · push_cast at htie
      rw [show (m : ℝ) + 1 / 2 + f - (m + 1) = -(1 / 2 - f) by ring, abs_neg,
        abs_of_nonneg (by linarith)] at htie
      linarith

end Holds

/-! ## Packing a rounded significand -/

/-- **Packing a canonical significand keeps its value**, and one too large becomes an infinity. -/
theorem value_pack_finite (s : Sign) {m : ℕ} {e : ℤ} (hpos : 0 < m) (hm : m < 2 ^ 53)
    (hlo : -1074 ≤ e) (hnormal : 2 ^ 52 ≤ m ∨ e = -1074) :
    IsNumber (.ofModel (.pack (.finite s m e hpos))) ∧
      value (.ofModel (.pack (.finite s m e hpos)))
        = clamp (signFactor s * (m * (2 : ℝ) ^ e)) := by
  rcases le_or_gt e 971 with hhi | hhi
  · rw [finite_eq_ofWord s hpos hm hlo hnormal hhi, ← magnitude_eq hm hlo hnormal]
    refine value_ofModel_pack s ?_
    unfold infinityWord
    omega
  · have hpack : Float.Model.pack (.finite s m e hpos) = .pack (ofWord s infinityWord) := by
      have hbias : (binary64.exponentBias : ℤ) = 1023 := by decide
      have hword : UnpackedFloat.pack binary64 (.finite s m e hpos) = packedInfinity binary64 s := by
        rw [UnpackedFloat.pack, if_pos]
        rw [hbias]
        norm_num
        omega
      have hsame : UnpackedFloat.pack binary64 (.finite s m e hpos)
          = UnpackedFloat.pack binary64 (.infinity s) := hword
      rw [ofWord, if_neg (lt_irrefl _), if_pos rfl]
      unfold Float.Model.pack
      simp only [hsame]
    have hlarge : limit ≤ m * (2 : ℝ) ^ e := by
      have h52 : (2 : ℝ) ^ (52 : ℕ) ≤ m := by exact_mod_cast (by omega : 2 ^ 52 ≤ m)
      calc limit = 2 ^ 52 * (2 : ℝ) ^ (972 : ℤ) := by
            rw [limit, show (1024 : ℤ) = 972 + (52 : ℕ) by norm_num, zpow_two_add]
        _ ≤ m * (2 : ℝ) ^ e := mul_le_mul h52 (zpow_two_le (by omega)) (zpow_two_pos _).le
            (Nat.cast_nonneg m)
    have hinf := value_ofModel_pack s le_rfl
    rw [hpack]
    refine ⟨hinf.1, hinf.2.trans ?_⟩
    rw [magnitude_infinityWord]
    cases s
    · rw [signFactor, neg_one_mul, neg_one_mul, clamp_neg, clamp_neg, clamp_of_le le_rfl,
        clamp_of_le hlarge]
    · rw [signFactor, one_mul, one_mul, clamp_of_le le_rfl, clamp_of_le hlarge]

/-! ## The last place of a held number -/

theorem targetExponent_eq (m : ℕ) (e : ℤ) :
    binary64.targetExponent (totalExponent m e) = max (m.log2 + e - 52) (-1074) := by
  have h : binary64.targetExponent (totalExponent m e)
      = max (m.log2 + 1 + e - 53) (-1074) := rfl
  rw [h]
  congr 1
  ring

/-- **The target exponent is the last place** of the number that the mantissa is the integer part
of, provided that there are bits enough. -/
theorem targetExponent_eq_unitExponent {m : ℕ} {e : ℤ} {x : ℝ} (hlo : (m : ℝ) ≤ x)
    (hhi : x < m + 1) (he : e ≤ binary64.targetExponent (totalExponent m e)) :
    binary64.targetExponent (totalExponent m e) = unitExponent (x * (2 : ℝ) ^ e) := by
  have hpos := zpow_two_pos e
  have hx0 : 0 ≤ x := (Nat.cast_nonneg m).trans hlo
  have habs : |x * (2 : ℝ) ^ e| = x * (2 : ℝ) ^ e := abs_of_nonneg (mul_nonneg hx0 hpos.le)
  rw [targetExponent_eq] at he ⊢
  refine le_antisymm ?_ (unitExponent_le (le_max_right _ _) ?_)
  · rcases le_total ((m.log2 : ℤ) + e - 52) (-1074) with hsub | hnormal
    · rw [max_eq_right hsub]
      exact le_unitExponent _
    · rw [max_eq_left hnormal]
      have hm : m ≠ 0 := by
        rintro rfl
        simp only [Nat.log2_zero, Nat.cast_zero] at he hnormal
        omega
      refine le_unitExponent_of_le ?_
      have hpow : ((2 ^ m.log2 : ℕ) : ℝ) ≤ m := by exact_mod_cast Nat.log2_self_le hm
      rw [habs, show (m.log2 : ℤ) + e - 52 + 52 = e + m.log2 by ring, zpow_two_add]
      push_cast at hpow
      exact mul_le_mul_of_nonneg_right (hpow.trans hlo) hpos.le
  · have hpow : ((m + 1 : ℕ) : ℝ) ≤ (2 ^ (m.log2 + 1) : ℕ) := by
      exact_mod_cast Nat.lt_log2_self
    push_cast at hpow
    calc |x * (2 : ℝ) ^ e| = x * (2 : ℝ) ^ e := habs
      _ < 2 ^ (m.log2 + 1) * (2 : ℝ) ^ e :=
          mul_lt_mul_of_pos_right (hhi.trans_le hpow) hpos
      _ = (2 : ℝ) ^ (e + (m.log2 + 1 : ℕ)) := (zpow_two_add _ _).symm
      _ ≤ (2 : ℝ) ^ (max ((m.log2 : ℤ) + e - 52) (-1074) + 53) := by
          refine zpow_two_le ?_
          push_cast
          omega

/-- Shifting to the target exponent divides by the power of two between. -/
theorem shiftToTargetExponent_holds {m : ℕ} {e : ℤ} {acc : Accuracy} {x : ℝ}
    (h : Holds (.ofMantissaAndAccuracy m acc) x)
    (he : e ≤ binary64.targetExponent (totalExponent m e)) :
    (shiftToTargetExponent binary64 m e acc).2 = binary64.targetExponent (totalExponent m e) ∧
      Holds (shiftToTargetExponent binary64 m e acc).1
        (x * (2 : ℝ) ^ e / (2 : ℝ) ^ binary64.targetExponent (totalExponent m e)) := by
  have hle : ((binary64.targetExponent (totalExponent m e) - e).toNat : ℤ)
      = binary64.targetExponent (totalExponent m e) - e := Int.toNat_of_nonneg (by omega)
  refine ⟨?_, ?_⟩
  · change e + ((binary64.targetExponent (totalExponent m e) - e).toNat : ℤ) = _
    omega
  · have hshift := h.shiftRight (binary64.targetExponent (totalExponent m e) - e).toNat
    have hdiv : x / 2 ^ (binary64.targetExponent (totalExponent m e) - e).toNat
        = x * (2 : ℝ) ^ e / (2 : ℝ) ^ binary64.targetExponent (totalExponent m e) := by
      rw [← zpow_natCast, hle, zpow_sub₀ (by norm_num), div_div_eq_mul_div]
    rw [hdiv] at hshift
    exact hshift

/-- A significand that rounding filled up to the next power of two is shifted once more; any other
one stays. -/
theorem shiftToTargetExponent_exact {m : ℕ} {e : ℤ} (hm : m ≤ 2 ^ 53) (he : -1074 ≤ e) :
    (m < 2 ^ 53 ∧ (shiftToTargetExponent binary64 m e .exact).1.mantissa = m ∧
        (shiftToTargetExponent binary64 m e .exact).2 = e) ∨
      (m = 2 ^ 53 ∧ (shiftToTargetExponent binary64 m e .exact).1.mantissa = 2 ^ 52 ∧
        (shiftToTargetExponent binary64 m e .exact).2 = e + 1) := by
  have hdef : shiftToTargetExponent binary64 m e .exact
      = ((binary64.targetExponent (totalExponent m e) - e).toNat.repeat
          ExtendedMantissa.shiftRightOne (.ofMantissaAndAccuracy m .exact),
        e + (binary64.targetExponent (totalExponent m e) - e).toNat) := rfl
  rcases hm.lt_or_eq with hlt | rfl
  · have hlog : m.log2 ≤ 52 := by
      rcases eq_or_ne m 0 with rfl | h0
      · simp
      · have := (Nat.log2_lt h0).mpr hlt
        omega
    have hzero : (binary64.targetExponent (totalExponent m e) - e).toNat = 0 := by
      rw [targetExponent_eq]
      omega
    rw [hdef, hzero]
    exact .inl ⟨hlt, rfl, by simp⟩
  · have hone : (binary64.targetExponent (totalExponent (2 ^ 53) e) - e).toNat = 1 := by
      rw [targetExponent_eq, Nat.log2_two_pow]
      omega
    rw [hdef, hone]
    exact .inr ⟨rfl, rfl, by simp⟩

/-! ## Rounding and packing -/

/-- **Rounding a held number to the format and packing it** gives the rounded number, or infinity
beyond the largest float. -/
theorem value_roundWithAccuracy (s : Sign) {m : ℕ} {e : ℤ} {acc : Accuracy} {x : ℝ}
    (h : Holds (.ofMantissaAndAccuracy m acc) x)
    (he : e ≤ binary64.targetExponent (totalExponent m e)) :
    IsNumber (.ofModel (.pack (roundWithAccuracy binary64 s m e acc))) ∧
      value (.ofModel (.pack (roundWithAccuracy binary64 s m e acc)))
        = clamp (signFactor s * rounded (x * (2 : ℝ) ^ e)) := by
  have hmant : (ExtendedMantissa.ofMantissaAndAccuracy m acc).mantissa = m := by
    cases acc with
    | exact => rfl
    | inexact o => cases o <;> rfl
  have hunit := targetExponent_eq_unitExponent (hmant ▸ h.mantissa_le)
    (hmant ▸ h.lt_mantissa_add_one) he
  obtain ⟨hexp, hheld⟩ := shiftToTargetExponent_holds h he
  rw [hunit] at hexp hheld
  have hround := hheld.roundedMantissa_eq
  -- the first shift has found the last place, and the mantissa is rounded there
  generalize hfirst : shiftToTargetExponent binary64 m e acc = first at hexp hround
  obtain ⟨em, e₁⟩ := first
  simp only at hexp hround
  subst hexp
  have hlow := le_unitExponent (x * (2 : ℝ) ^ e)
  have hx0 : 0 ≤ x * (2 : ℝ) ^ e :=
    mul_nonneg ((Nat.cast_nonneg _).trans h.mantissa_le) (zpow_two_pos e).le
  have hvalue : rounded (x * (2 : ℝ) ^ e)
      = em.roundedMantissa * (2 : ℝ) ^ unitExponent (x * (2 : ℝ) ^ e) := by
    rw [rounded, ← hround, Int.cast_natCast]
  have hpos := zpow_two_pos (unitExponent (x * (2 : ℝ) ^ e))
  have hle : em.roundedMantissa ≤ 2 ^ 53 := by
    have hrep : rounded (x * (2 : ℝ) ^ e) ≤ (2 : ℝ) ^ (unitExponent (x * (2 : ℝ) ^ e) + (53 : ℕ)) :=
      rounded_le (representable_zpow (by push_cast; omega)) (le_of_abs_le (abs_lt_zpow _).le)
    rw [hvalue, zpow_two_add] at hrep
    exact_mod_cast le_of_mul_le_mul_right hrep hpos
  have hnormal : 2 ^ 52 ≤ em.roundedMantissa ∨ unitExponent (x * (2 : ℝ) ^ e) = -1074 := by
    by_cases hsub : unitExponent (x * (2 : ℝ) ^ e) = -1074
    · exact .inr hsub
    · have hbig := zpow_le_abs_of_normal hsub
      rw [abs_of_nonneg hx0, show (52 : ℤ) = (52 : ℕ) by norm_num] at hbig
      have hrep := le_rounded (representable_zpow (by push_cast; omega)) hbig
      rw [hvalue, zpow_two_add] at hrep
      exact .inl (by exact_mod_cast le_of_mul_le_mul_right hrep hpos)
  have hresult : roundWithAccuracy binary64 s m e acc
      = if h : (shiftToTargetExponent binary64 em.roundedMantissa
            (unitExponent (x * (2 : ℝ) ^ e)) .exact).1.mantissa = 0 then .zero s
        else .finite s _ (shiftToTargetExponent binary64 em.roundedMantissa
            (unitExponent (x * (2 : ℝ) ^ e)) .exact).2 (Nat.pos_of_ne_zero h) := by
    rw [roundWithAccuracy, hfirst]
  rw [hresult, hvalue]
  -- the second shift only meets a significand that rounding has filled up
  generalize unitExponent (x * (2 : ℝ) ^ e) = u at hlow hnormal ⊢
  generalize em.roundedMantissa = k at hle hnormal ⊢
  rcases shiftToTargetExponent_exact hle hlow with ⟨hlt, hmant, hexp⟩ | ⟨rfl, hmant, hexp⟩
  · rcases Nat.eq_zero_or_pos k with rfl | hk
    · rw [dif_pos hmant]
      have hzero := value_ofModel_pack s (Nat.zero_le infinityWord)
      rw [show ofWord s 0 = .zero s from rfl, magnitude_zero] at hzero
      simpa using hzero
    · rw [dif_neg (by omega)]
      simp only [hmant, hexp]
      exact value_pack_finite s hk hlt hlow hnormal
  · rw [dif_neg (by omega)]
    simp only [hmant, hexp]
    have hpack := value_pack_finite s (m := 2 ^ 52) (e := u + (1 : ℕ)) (by norm_num) (by norm_num)
      (by push_cast; omega) (.inl le_rfl)
    rw [zpow_two_add] at hpack
    push_cast at hpack ⊢
    convert hpack using 4
    ring

/-- Rounding an exact significand at any exponent; missing places are filled with zeros first. -/
theorem value_round (s : Sign) {m : ℕ} (hm : 0 < m) (e : ℤ) :
    IsNumber (.ofModel (.pack (UnpackedFloat.round binary64 s m e))) ∧
      value (.ofModel (.pack (UnpackedFloat.round binary64 s m e)))
        = clamp (signFactor s * rounded (m * (2 : ℝ) ^ e)) := by
  obtain ⟨k, hk⟩ : ∃ k : ℕ, (e - binary64.targetExponent (totalExponent m e)).toNat = k := ⟨_, rfl⟩
  have hdef : UnpackedFloat.round binary64 s m e
      = roundWithAccuracy binary64 s (m <<< k) (e - k) .exact := by
    rw [← hk]
    rfl
  have hvalue : ((m <<< k : ℕ) : ℝ) * (2 : ℝ) ^ (e - k) = m * (2 : ℝ) ^ e := by
    rw [Nat.shiftLeft_eq, zpow_sub₀ (by norm_num), zpow_natCast]
    push_cast
    field_simp
  rw [hdef, ← hvalue]
  refine value_roundWithAccuracy s (.exact _) ?_
  rw [targetExponent_eq] at hk ⊢
  have hlog : (m <<< k).log2 = m.log2 + k := by
    rw [Nat.log2_eq_iff (by rw [Nat.shiftLeft_eq]; positivity), Nat.shiftLeft_eq, pow_add,
      show m.log2 + k + 1 = m.log2 + 1 + k by ring, pow_add]
    exact ⟨Nat.mul_le_mul_right _ (Nat.log2_self_le hm.ne'),
      Nat.mul_lt_mul_of_pos_right Nat.lt_log2_self (by positivity)⟩
  rw [hlog]
  push_cast
  omega

/-- **Normalizing an exact signed significand** rounds its value. -/
theorem value_normalize (m e : ℤ) (s : Sign) :
    IsNumber (.ofModel (.pack (UnpackedFloat.normalize binary64 m e s))) ∧
      value (.ofModel (.pack (UnpackedFloat.normalize binary64 m e s))) = clamp (rounded (m * (2 : ℝ) ^ e)) := by
  unfold UnpackedFloat.normalize
  rcases lt_trichotomy m 0 with hlt | rfl | hgt
  · rw [compare_lt_iff_lt.mpr hlt]
    have h := value_round .negative (m := (-m).toNat) (by omega) e
    have hm : (((-m).toNat : ℕ) : ℝ) = -m := by
      rw [← Int.cast_natCast, Int.toNat_of_nonneg (by omega), Int.cast_neg]
    rw [hm, neg_mul, rounded_neg, signFactor, neg_one_mul, neg_neg] at h
    exact h
  · rw [compare_eq_iff_eq.mpr rfl, Int.cast_zero, zero_mul, rounded_zero]
    have h := value_ofModel_pack s (Nat.zero_le infinityWord)
    rw [show ofWord s 0 = .zero s from rfl, magnitude_zero, mul_zero] at h
    exact h
  · rw [compare_gt_iff_gt.mpr hgt]
    have h := value_round .positive (m := m.toNat) (by omega) e
    have hm : ((m.toNat : ℕ) : ℝ) = m := by
      rw [← Int.cast_natCast, Int.toNat_of_nonneg (by omega)]
    rw [hm, signFactor, one_mul] at h
    exact h

end CertifiedZeros.Binary64
