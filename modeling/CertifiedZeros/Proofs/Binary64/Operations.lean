import CertifiedZeros.Binary64.FusedMultiplyAdd
import CertifiedZeros.Proofs.Binary64.ExtendedMantissa

/-! # What the operations on floats compute

Each arithmetic operation on finite floats is the exact one, rounded once: the specification lemmas
have the form `IsNumber (x ∘ y) ∧ value (x ∘ y) = clamp (rounded (real x ∘ real y))`.

* **`neg_spec`**, **`abs_spec`** — exact, for infinities as well.
* **`add_spec`**, **`sub_spec`**, **`mul_spec`**, **`div_spec`**, **`fma_spec`** — rounded.
* **`sub_self_eq_zero`**, **`zero_div_eq_zero`** — zeros that come out with their sign.
* **`add_infinite`**, **`mul_infinite`** — what an infinite operand makes of a sum or product.
* **`not_isNumber_add`**, **`not_isNumber_mul`** — a NaN operand makes it a NaN.

Later proofs cite these and never unfold an operation. -/

namespace CertifiedZeros.Binary64

open Float.Model (UnpackedFloat totalExponent)
open Float.Model.Format (binary64)
open Float.Model.UnpackedFloat

variable {x y z : Float}

/-! ## Finite operands -/

/-- **A finite float is a zero or has a canonical significand.** -/
theorem finite_cases (h : x.isFinite = true) :
    (∃ s, x.toModel.unpack = .zero s ∧ real x = 0) ∨
      ∃ s m e hm, x.toModel.unpack = .finite s m e hm ∧ real x = signFactor s * (m * (2 : ℝ) ^ e) ∧
        m < 2 ^ 53 ∧ -1074 ≤ e ∧ (2 ^ 52 ≤ m ∨ e = -1074) ∧ e ≤ 971 := by
  obtain ⟨s, w, hw, hx⟩ := exists_word_of_isFinite h
  have hreal := real_eq_of_value (value_eq_of_word hw hx)
  rw [ofWord, if_neg hw.not_gt, if_neg hw.ne] at hx
  split_ifs at hx with h0
  · rw [h0, magnitude_zero, mul_zero] at hreal
    exact .inl ⟨s, hx, hreal⟩
  · refine .inr ⟨s, _, _, _, hx, hreal, ?_, ?_, ?_, ?_⟩
    · unfold wordSignificand
      split_ifs <;> omega
    · unfold wordExponent
      omega
    · unfold wordSignificand wordExponent
      split_ifs <;> omega
    · unfold infinityWord at hw
      unfold wordExponent
      omega

/-- A number whose real value is known is finite. -/
theorem isFinite_of_value {r : ℝ} (hx : IsNumber x) (hr : value x = (r : EReal)) :
    x.isFinite = true := isFinite_iff.mpr ⟨hx, r, hr⟩

/-- Rounding a finite float changes nothing. -/
theorem clamp_rounded_real (h : x.isFinite = true) : clamp (rounded (real x)) = value x := by
  rw [rounded_eq (representable_real h), clamp_of_lt (abs_real_lt h), coe_real h]

/-- **Rounding does not carry a number below a float.** -/
theorem value_le_clamp_rounded {r : ℝ} (hx : IsNumber x) (h : value x ≤ (r : EReal)) :
    value x ≤ clamp (rounded r) := by
  rcases hx.cases with hfin | ⟨-, htop | hbot⟩
  · rw [← coe_real hfin, EReal.coe_le_coe_iff] at h
    rw [← clamp_rounded_real hfin]
    exact clamp_mono (rounded_mono h)
  · rw [htop] at h
    exact absurd h (not_le.mpr (EReal.coe_lt_top r))
  · rw [hbot]
    exact bot_le

/-- **Rounding does not carry a number above a float.** -/
theorem clamp_rounded_le_value {r : ℝ} (hx : IsNumber x) (h : (r : EReal) ≤ value x) :
    clamp (rounded r) ≤ value x := by
  rcases hx.cases with hfin | ⟨-, htop | hbot⟩
  · rw [← coe_real hfin, EReal.coe_le_coe_iff] at h
    rw [← clamp_rounded_real hfin]
    exact clamp_mono (rounded_mono h)
  · rw [htop]
    exact le_top
  · rw [hbot] at h
    exact absurd h (not_le.mpr (EReal.bot_lt_coe r))

/-- Packing what was unpacked gives the same float. -/
theorem unpack_pack_unpack (x : Float) :
    (Float.Model.pack x.toModel.unpack).unpack = x.toModel.unpack := by
  by_cases h : IsNumber x
  · obtain ⟨s, w, hw, hx⟩ := h.exists_word
    rw [hx]
    exact unpack_pack_ofWord s hw
  · rw [unpack_of_not_isNumber h]
    rfl

theorem repack_spec (h : x.isFinite = true) :
    IsNumber (.ofModel (.pack x.toModel.unpack)) ∧
      value (.ofModel (.pack x.toModel.unpack)) = clamp (rounded (real x)) := by
  rw [clamp_rounded_real h, value, value]
  simp only [unpack_pack_unpack, and_true]
  change (Float.Model.pack x.toModel.unpack).unpack.isNaN = false
  rw [unpack_pack_unpack]
  exact isNumber_of_isFinite h

/-- A zero of either sign. -/
theorem zero_spec (s : Sign) :
    IsNumber (.ofModel (.pack (.zero s))) ∧ value (.ofModel (.pack (.zero s))) = 0 := by
  have h := value_ofModel_pack s (Nat.zero_le infinityWord)
  rw [show ofWord s 0 = .zero s from rfl, magnitude_zero, mul_zero,
    clamp_of_lt (by rw [abs_zero]; exact limit_pos)] at h
  exact h

/-- An infinity of either sign. -/
theorem infinity_spec (s : Sign) :
    IsNumber (.ofModel (.pack (.infinity s))) ∧
      value (.ofModel (.pack (.infinity s))) = unpackedValue (.infinity s) := by
  have h := value_ofModel_pack s le_rfl
  rw [← unpackedValue_ofWord s le_rfl] at h
  rw [show ofWord s infinityWord = .infinity s by rw [ofWord, if_neg (lt_irrefl _), if_pos rfl]] at h
  exact h

theorem clamp_rounded_zero : clamp (rounded 0) = 0 := by
  rw [rounded_zero, clamp_of_lt (by rw [abs_zero]; exact limit_pos)]
  rfl

/-! ## Signs -/

theorem signFactor_neg (s : Sign) : signFactor (-s) = -signFactor s := by
  cases s
  · exact (neg_neg (1 : ℝ)).symm
  · rfl

theorem signFactor_mul (s t : Sign) : signFactor (s * t) = signFactor s * signFactor t := by
  cases s <;> cases t
  · exact (by norm_num : (1 : ℝ) = -1 * -1)
  · exact (mul_one (-1 : ℝ)).symm
  · exact (one_mul (-1 : ℝ)).symm
  · exact (one_mul (1 : ℝ)).symm

theorem signFactor_div (s t : Sign) : signFactor (s / t) = signFactor s / signFactor t := by
  cases s <;> cases t
  · exact (by norm_num : (1 : ℝ) = -1 / -1)
  · exact (div_one (-1 : ℝ)).symm
  · exact (by norm_num : (-1 : ℝ) = 1 / -1)
  · exact (div_one (1 : ℝ)).symm

theorem neg_ofWord (s : Sign) (w : ℕ) : (ofWord s w).neg = ofWord (-s) w := by
  unfold ofWord
  split_ifs <;> rfl

theorem abs_ofWord (s : Sign) (w : ℕ) : (ofWord s w).abs = ofWord .positive w := by
  unfold ofWord
  split_ifs <;> rfl

/-- **Negation is exact.** -/
theorem neg_spec (h : IsNumber x) : IsNumber (-x) ∧ value (-x) = -value x := by
  obtain ⟨s, w, hw, hx⟩ := h.exists_word
  have hdef : -x = .ofModel (.pack (x.toModel.unpack.neg)) := rfl
  rw [hdef, hx, neg_ofWord]
  refine ⟨(value_ofModel_pack (-s) hw).1, (value_ofModel_pack (-s) hw).2.trans ?_⟩
  rw [value, hx, unpackedValue_ofWord s hw, signFactor_neg, neg_mul, clamp_neg]

/-- **The absolute value is exact.** -/
theorem abs_spec (h : IsNumber x) :
    IsNumber x.abs ∧ value x.abs = max (value x) (-value x) := by
  obtain ⟨s, w, hw, hx⟩ := h.exists_word
  have hdef : x.abs = .ofModel (.pack (x.toModel.unpack.abs)) := rfl
  rw [hdef, hx, abs_ofWord]
  refine ⟨(value_ofModel_pack .positive hw).1, (value_ofModel_pack .positive hw).2.trans ?_⟩
  have hmag := magnitude_nonneg w
  rw [value, hx, unpackedValue_ofWord s hw, ← clamp_neg]
  cases s
  · rw [signFactor, signFactor, one_mul, neg_one_mul, neg_neg,
      max_eq_right (clamp_mono (by linarith))]
  · rw [signFactor, one_mul, max_eq_left (clamp_mono (by linarith))]

theorem neg_finite (h : x.isFinite = true) : (-x).isFinite = true ∧ real (-x) = -real x := by
  have hneg := neg_spec (isNumber_of_isFinite h)
  rw [← coe_real h, ← EReal.coe_neg] at hneg
  exact ⟨isFinite_of_value hneg.1 hneg.2, real_eq_of_value hneg.2⟩

theorem abs_finite (h : x.isFinite = true) : x.abs.isFinite = true ∧ real x.abs = |real x| := by
  obtain ⟨hnum, hval⟩ := abs_spec (isNumber_of_isFinite h)
  have habs : value x.abs = ((|real x| : ℝ) : EReal) := by
    rw [hval, ← coe_real h, ← EReal.coe_neg]
    rcases le_total 0 (real x) with h0 | h0
    · rw [abs_of_nonneg h0, max_eq_left (EReal.coe_le_coe_iff.mpr (by linarith))]
    · rw [abs_of_nonpos h0, max_eq_right (EReal.coe_le_coe_iff.mpr (by linarith))]
  exact ⟨isFinite_of_value hnum habs, real_eq_of_value habs⟩

/-- Rounding is symmetric, so the sign may stand inside. -/
theorem rounded_signFactor_mul (s : Sign) (r : ℝ) :
    rounded (signFactor s * r) = signFactor s * rounded r := by
  cases s
  · rw [signFactor, neg_one_mul, neg_one_mul, rounded_neg]
  · rw [signFactor, one_mul, one_mul]

theorem cast_apply (s : Sign) (m : ℕ) : ((s.apply m : ℤ) : ℝ) = signFactor s * m := by
  cases s <;> simp [Sign.apply, signFactor]

/-! ## Sums and differences -/

/-- Lowering an exponent keeps the value. -/
theorem decreaseExponent_value (m : ℕ) {e f : ℤ} (h : f ≤ e) :
    ((decreaseExponent m e f).1 : ℝ) * (2 : ℝ) ^ f = m * (2 : ℝ) ^ e := by
  change ((m <<< (e - f).toNat : ℕ) : ℝ) * (2 : ℝ) ^ f = m * (2 : ℝ) ^ e
  obtain ⟨k, hk⟩ : ∃ k : ℕ, e = f + k := ⟨(e - f).toNat, by omega⟩
  rw [show (e - f).toNat = k by omega, hk, zpow_two_add, Nat.shiftLeft_eq]
  push_cast
  ring

/-- **A sum of finite floats is rounded once.** -/
theorem add_spec (hx : x.isFinite = true) (hy : y.isFinite = true) :
    IsNumber (x + y) ∧ value (x + y) = clamp (rounded (real x + real y)) := by
  have hdef : x + y = .ofModel (.pack (x.toModel.unpack.add binary64 y.toModel.unpack)) := rfl
  rw [hdef]
  rcases finite_cases hx with ⟨s, hux, hrx⟩ | ⟨s, m, e, hm, hux, hrx, -⟩ <;>
    rcases finite_cases hy with ⟨t, huy, hry⟩ | ⟨t, n, f, hn, huy, hry, -⟩
  · rw [hux, huy, hrx, hry, add_zero, clamp_rounded_zero]
    simp only [UnpackedFloat.add]
    split_ifs
    · exact zero_spec s
    · exact zero_spec .positive
  · have h := repack_spec hy
    rw [huy] at h
    rw [hux, huy, hrx, zero_add]
    exact h
  · have h := repack_spec hx
    rw [hux] at h
    rw [hux, huy, hry, add_zero]
    exact h
  · rw [hux, huy]
    have h := value_normalize (s.apply (decreaseExponent m e (min e f)).1
      + t.apply (decreaseExponent n f (min e f)).1) (min e f) .positive
    have hsum : (((s.apply (decreaseExponent m e (min e f)).1
        + t.apply (decreaseExponent n f (min e f)).1 : ℤ)) : ℝ) * (2 : ℝ) ^ min e f
        = real x + real y := by
      rw [Int.cast_add, cast_apply, cast_apply, add_mul, mul_assoc, mul_assoc,
        decreaseExponent_value m (min_le_left e f), decreaseExponent_value n (min_le_right e f),
        hrx, hry]
    rw [hsum] at h
    exact h

theorem unpack_neg (x : Float) : (-x).toModel.unpack = x.toModel.unpack.neg := by
  change (Float.Model.pack x.toModel.unpack.neg).unpack = _
  by_cases h : IsNumber x
  · obtain ⟨s, w, hw, hx⟩ := h.exists_word
    rw [hx, neg_ofWord]
    exact unpack_pack_ofWord (-s) hw
  · rw [unpack_of_not_isNumber h]
    rfl

/-- **A difference adds the opposite**, bit for bit. -/
theorem sub_eq_add_opposite (x y : Float) : x - y = x + -y := by
  change Float.ofModel (.pack (x.toModel.unpack.sub binary64 y.toModel.unpack))
    = .ofModel (.pack (x.toModel.unpack.add binary64 (-y).toModel.unpack))
  rw [unpack_neg]
  congr 2
  cases x.toModel.unpack with
  | finite s m e hm =>
    cases y.toModel.unpack with
    | finite t n f hn =>
      have hsign : ∀ k : ℤ, (-t).apply k = -t.apply k := fun k => by
        cases t
        · exact (Int.neg_neg k).symm
        · rfl
      simp only [UnpackedFloat.sub, UnpackedFloat.add, UnpackedFloat.neg, hsign, Int.sub_eq_add_neg]
    | zero t | infinity t => rfl
    | notANumber => rfl
  | zero s | infinity s => cases y.toModel.unpack <;> rfl
  | notANumber => rfl

/-- **A difference of finite floats is rounded once.** -/
theorem sub_spec (hx : x.isFinite = true) (hy : y.isFinite = true) :
    IsNumber (x - y) ∧ value (x - y) = clamp (rounded (real x - real y)) := by
  have hdef : x - y = .ofModel (.pack (x.toModel.unpack.sub binary64 y.toModel.unpack)) := rfl
  rw [hdef]
  rcases finite_cases hx with ⟨s, hux, hrx⟩ | ⟨s, m, e, hm, hux, hrx, -⟩ <;>
    rcases finite_cases hy with ⟨t, huy, hry⟩ | ⟨t, n, f, hn, huy, hry, hn53, hlo, hnormal, -⟩
  · rw [hux, huy, hrx, hry, sub_zero, clamp_rounded_zero]
    simp only [UnpackedFloat.sub]
    split_ifs
    · exact zero_spec s
    · exact zero_spec .positive
  · have hneg := neg_spec (isNumber_of_isFinite hy)
    rw [show -y = .ofModel (.pack (y.toModel.unpack.neg)) from rfl, huy] at hneg
    rw [hux, huy, hrx, zero_sub, rounded_neg, clamp_neg, clamp_rounded_real hy]
    exact hneg
  · have h := repack_spec hx
    rw [hux] at h
    rw [hux, huy, hry, sub_zero]
    exact h
  · rw [hux, huy]
    have h := value_normalize (s.apply (decreaseExponent m e (min e f)).1
      - t.apply (decreaseExponent n f (min e f)).1) (min e f) .positive
    have hdiff : (((s.apply (decreaseExponent m e (min e f)).1
        - t.apply (decreaseExponent n f (min e f)).1 : ℤ)) : ℝ) * (2 : ℝ) ^ min e f
        = real x - real y := by
      rw [Int.cast_sub, cast_apply, cast_apply, sub_mul, mul_assoc, mul_assoc,
        decreaseExponent_value m (min_le_left e f), decreaseExponent_value n (min_le_right e f),
        hrx, hry]
    rw [hdiff] at h
    exact h

/-! ## Products and quotients -/

/-- A product of two significands has bits enough to be rounded. -/
theorem mul_le_targetExponent {m n : ℕ} {e f : ℤ} (hm : 0 < m) (hn : 0 < n)
    (he : 2 ^ 52 ≤ m ∨ e = -1074) (hf : 2 ^ 52 ≤ n ∨ f = -1074) :
    e + f ≤ binary64.targetExponent (totalExponent (m * n) (e + f)) := by
  rw [targetExponent_eq]
  have hlog : ∀ k : ℕ, 2 ^ 52 ≤ k → 52 ≤ k.log2 := fun k hk =>
    (Nat.le_log2 (by omega)).mpr hk
  rcases he with hm52 | rfl
  · have := hlog (m * n) (hm52.trans (Nat.le_mul_of_pos_right m hn))
    omega
  · rcases hf with hn52 | rfl
    · have := hlog (m * n) (hn52.trans (Nat.le_mul_of_pos_left n hm))
      omega
    · omega

/-- **A product of finite floats is rounded once.** -/
theorem mul_spec (hx : x.isFinite = true) (hy : y.isFinite = true) :
    IsNumber (x * y) ∧ value (x * y) = clamp (rounded (real x * real y)) := by
  have hdef : x * y = .ofModel (.pack (x.toModel.unpack.mul binary64 y.toModel.unpack)) := rfl
  rw [hdef]
  rcases finite_cases hx with ⟨s, hux, hrx⟩ | ⟨s, m, e, hm, hux, hrx, -, -, he, -⟩ <;>
    rcases finite_cases hy with ⟨t, huy, hry⟩ | ⟨t, n, f, hn, huy, hry, -, -, hf, -⟩
  · rw [hux, huy, hrx, zero_mul, clamp_rounded_zero]
    exact zero_spec _
  · rw [hux, huy, hrx, zero_mul, clamp_rounded_zero]
    exact zero_spec _
  · rw [hux, huy, hry, mul_zero, clamp_rounded_zero]
    exact zero_spec _
  · rw [hux, huy]
    have h := value_roundWithAccuracy (s * t) (.exact (m * n)) (mul_le_targetExponent hm hn he hf)
    have hprod : real x * real y = signFactor (s * t) * ((m * n : ℕ) * (2 : ℝ) ^ (e + f)) := by
      rw [hrx, hry, signFactor_mul, zpow_add₀ (by norm_num)]
      push_cast
      ring
    rw [hprod, rounded_signFactor_mul]
    exact h

/-- **The accuracy of an integer quotient** says what the remainder leaves. -/
theorem holds_accuracyOfFraction {m n : ℕ} (hn : 0 < n) :
    Holds (.ofMantissaAndAccuracy (m / n) (accuracyOfFraction (m % n) n)) (m / n : ℝ) := by
  have hn' : (0 : ℝ) < n := by exact_mod_cast hn
  have hdiv : (m / n : ℝ) = (m / n : ℕ) + (m % n : ℕ) / n := by
    rw [eq_comm, ← sub_eq_zero]
    field_simp
    have : (n : ℝ) * (m / n : ℕ) + (m % n : ℕ) = m := by exact_mod_cast Nat.div_add_mod m n
    linarith
  have hmod : ((m % n : ℕ) : ℝ) < n := by exact_mod_cast Nat.mod_lt m hn
  rw [hdiv]
  unfold accuracyOfFraction
  split_ifs with h0
  · rw [h0, Nat.cast_zero, zero_div, add_zero]
    exact .exact _
  · have hpos : (0 : ℝ) < (m % n : ℕ) := by exact_mod_cast Nat.pos_of_ne_zero h0
    have hfrac : (0 : ℝ) < (m % n : ℕ) / n := div_pos hpos hn'
    have hone : ((m % n : ℕ) : ℝ) / n < 1 := (div_lt_one hn').mpr hmod
    rcases lt_trichotomy (2 * (m % n)) n with hlt | heq | hgt
    · rw [compare_lt_iff_lt.mpr hlt]
      have hlt' : (2 : ℝ) * (m % n : ℕ) < n := by exact_mod_cast hlt
      refine ⟨(m % n : ℕ) / n, hfrac.le, ?_, ?_, ?_⟩
      · rw [div_lt_iff₀ hn']
        linarith
      · simpa [ExtendedMantissa.ofMantissaAndAccuracy] using hfrac.ne'
      · simp [ExtendedMantissa.ofMantissaAndAccuracy]
    · rw [compare_eq_iff_eq.mpr heq]
      have heq' : (2 : ℝ) * (m % n : ℕ) = n := by exact_mod_cast heq
      refine ⟨0, le_rfl, by norm_num, ?_, ?_⟩
      · simp [ExtendedMantissa.ofMantissaAndAccuracy]
      · simp only [ExtendedMantissa.ofMantissaAndAccuracy, if_true, add_zero, add_right_inj]
        rw [div_eq_iff hn'.ne']
        linarith
    · rw [compare_gt_iff_gt.mpr hgt]
      have hgt' : (n : ℝ) < 2 * (m % n : ℕ) := by exact_mod_cast hgt
      have hhalf : (1 : ℝ) / 2 < (m % n : ℕ) / n := by
        rw [lt_div_iff₀ hn']
        linarith
      refine ⟨(m % n : ℕ) / n - 1 / 2, by linarith, by linarith, ?_, ?_⟩
      · simpa [ExtendedMantissa.ofMantissaAndAccuracy, sub_eq_zero] using hhalf.ne'
      · simp only [ExtendedMantissa.ofMantissaAndAccuracy, if_true]
        ring

/-- **A quotient of finite floats is rounded once**, as long as the divisor is not zero. -/
theorem div_spec (hx : x.isFinite = true) (hy : y.isFinite = true) (h0 : real y ≠ 0) :
    IsNumber (x / y) ∧ value (x / y) = clamp (rounded (real x / real y)) := by
  have hdef : x / y = .ofModel (.pack (x.toModel.unpack.div binary64 y.toModel.unpack)) := rfl
  rw [hdef]
  rcases finite_cases hy with ⟨t, huy, hry⟩ | ⟨t, n, f, hn, huy, hry, -⟩
  · exact absurd hry h0
  rcases finite_cases hx with ⟨s, hux, hrx⟩ | ⟨s, m, e, hm, hux, hrx, -⟩
  · rw [hux, huy, hrx, zero_div, clamp_rounded_zero]
    exact zero_spec _
  · rw [hux, huy]
    obtain ⟨g, hg⟩ : ∃ g : ℤ, min (e - f) (binary64.targetExponent
        (totalExponent m e - totalExponent n f)) = g := ⟨_, rfl⟩
    obtain ⟨k, hk⟩ : ∃ k : ℕ, (e - f - g).toNat = k := ⟨_, rfl⟩
    have hke : e - f = g + k := by omega
    have hcore : UnpackedFloat.div binary64 (.finite s m e hm) (.finite t n f hn)
        = roundWithAccuracy binary64 (s / t) ((m <<< k) / n) g
            (accuracyOfFraction ((m <<< k) % n) n) := by
      rw [← hk, ← hg]
      rfl
    have hbits : g ≤ binary64.targetExponent (totalExponent ((m <<< k) / n) g) := by
      have htarget : g ≤ max ((m.log2 : ℤ) + e - n.log2 - f - 53) (-1074) := by
        have : binary64.targetExponent (totalExponent m e - totalExponent n f)
            = max ((m.log2 : ℤ) + 1 + e - (n.log2 + 1 + f) - 53) (-1074) := rfl
        omega
      rw [targetExponent_eq]
      rcases le_or_gt g (-1074) with hsub | hnormal
      · omega
      · have hlog : 52 ≤ ((m <<< k) / n).log2 := by
          have hpow : 2 ^ 52 * 2 ^ (n.log2 + 1) ≤ 2 ^ m.log2 * 2 ^ k := by
            rw [← pow_add, ← pow_add]
            exact Nat.pow_le_pow_right (by norm_num) (by omega)
          have hquot : 2 ^ 52 ≤ (m <<< k) / n := by
            rw [Nat.le_div_iff_mul_le hn, Nat.shiftLeft_eq]
            calc 2 ^ 52 * n ≤ 2 ^ 52 * 2 ^ (n.log2 + 1) :=
                  Nat.mul_le_mul_left _ Nat.lt_log2_self.le
              _ ≤ 2 ^ m.log2 * 2 ^ k := hpow
              _ ≤ m * 2 ^ k := Nat.mul_le_mul_right _ (Nat.log2_self_le hm.ne')
          exact (Nat.le_log2 (by omega)).mpr hquot
        omega
    have h := value_roundWithAccuracy (s / t) (holds_accuracyOfFraction (m := m <<< k) hn) hbits
    have hn' : (n : ℝ) ≠ 0 := by exact_mod_cast hn.ne'
    have hquot : real x / real y
        = signFactor (s / t) * (((m <<< k : ℕ) : ℝ) / n * (2 : ℝ) ^ g) := by
      have hpow : (2 : ℝ) ^ e / (2 : ℝ) ^ f = 2 ^ k * (2 : ℝ) ^ g := by
        rw [← zpow_sub₀ (by norm_num), hke, zpow_two_add]
      rw [hrx, hry, signFactor_div, Nat.shiftLeft_eq, mul_div_mul_comm, mul_div_mul_comm, hpow]
      push_cast
      ring
    rw [hcore, hquot, rounded_signFactor_mul]
    exact h

/-- **A finite float less itself** is the positive zero. -/
theorem sub_self_eq_zero (hx : x.isFinite = true) : x - x = 0 := by
  change Float.ofModel (.pack (x.toModel.unpack.sub binary64 x.toModel.unpack)) = 0
  rcases finite_cases hx with ⟨s, hux, -⟩ | ⟨s, m, e, hm, hux, -⟩
  · rw [hux]
    cases s <;> rfl
  · rw [hux]
    simp only [UnpackedFloat.sub, Int.sub_self]
    rfl

/-- **Zero over a positive float** is the positive zero. -/
theorem zero_div_eq_zero (hx : x.isFinite = true) (h0 : 0 < real x) : 0 / x = 0 := by
  change Float.ofModel (.pack ((0 : Float).toModel.unpack.div binary64 x.toModel.unpack)) = 0
  rcases finite_cases hx with ⟨s, -, hrx⟩ | ⟨s, m, e, hm, hux, hrx, -⟩
  · exact absurd hrx h0.ne'
  · rw [hux]
    cases s with
    | positive => rfl
    | negative =>
      have hpos : (0 : ℝ) < m * (2 : ℝ) ^ e := mul_pos (by exact_mod_cast hm) (zpow_two_pos e)
      rw [hrx, signFactor] at h0
      linarith

/-! ## Fused multiply-add -/

/-- **The parts of a finite float** are a significand and an exponent of its value. -/
theorem exists_parts (hx : x.isFinite = true) :
    ∃ m e : ℤ, parts? x = some (m, e) ∧ real x = m * (2 : ℝ) ^ e := by
  unfold parts?
  rcases finite_cases hx with ⟨s, hux, hrx⟩ | ⟨s, m, e, hm, hux, hrx, -⟩
  · exact ⟨0, 0, by rw [hux], by rw [hrx]; simp⟩
  · exact ⟨s.apply m, e, by rw [hux], by rw [hrx, cast_apply]; ring⟩

/-- The aligned sum is the exact one. -/
theorem alignedSum_value (m₁ e₁ m₂ e₂ : ℤ) :
    ((alignedSum m₁ e₁ m₂ e₂).1 : ℝ) * (2 : ℝ) ^ (alignedSum m₁ e₁ m₂ e₂).2
      = m₁ * (2 : ℝ) ^ e₁ + m₂ * (2 : ℝ) ^ e₂ := by
  have hshift : ∀ (m : ℤ) {e f : ℤ}, f ≤ e →
      ((m <<< (e - f).toNat : ℤ) : ℝ) * (2 : ℝ) ^ f = m * (2 : ℝ) ^ e := by
    intro m e f h
    obtain ⟨k, rfl⟩ : ∃ k : ℕ, e = f + k := ⟨(e - f).toNat, by omega⟩
    rw [show (f + k - f).toNat = k by omega, zpow_two_add, Int.shiftLeft_eq]
    push_cast
    ring
  simp only [alignedSum]
  rw [Int.cast_add, add_mul, hshift m₁ (min_le_left e₁ e₂), hshift m₂ (min_le_right e₁ e₂)]

/-- **A fused multiply-add of finite floats is rounded once.** -/
theorem fma_spec (hx : x.isFinite = true) (hy : y.isFinite = true) (hz : z.isFinite = true) :
    IsNumber (fma x y z) ∧ value (fma x y z) = clamp (rounded (real x * real y + real z)) := by
  obtain ⟨mx, ex, hpx, hrx⟩ := exists_parts hx
  obtain ⟨my, ey, hpy, hry⟩ := exists_parts hy
  obtain ⟨mz, ez, hpz, hrz⟩ := exists_parts hz
  have hdef : fma x y z = if mx * my = 0 then x * y + z else
      nearest (alignedSum (mx * my) (ex + ey) mz ez).1 (alignedSum (mx * my) (ex + ey) mz ez).2 := by
    unfold fma
    rw [hpx, hpy, hpz]
  have hprod : real x * real y = ((mx * my : ℤ) : ℝ) * (2 : ℝ) ^ (ex + ey) := by
    rw [hrx, hry, zpow_add₀ (by norm_num)]
    push_cast
    ring
  rw [hdef]
  split_ifs with h0
  · have hzero : real x * real y = 0 := by rw [hprod, h0, Int.cast_zero, zero_mul]
    have hxy := mul_spec hx hy
    rw [hzero, clamp_rounded_zero] at hxy
    have hfin := isFinite_of_value (r := 0) hxy.1 hxy.2
    have hadd := add_spec hfin hz
    rw [real_eq_of_value (r := 0) hxy.2] at hadd
    rw [hzero]
    exact hadd
  · have h := value_normalize (alignedSum (mx * my) (ex + ey) mz ez).1
      (alignedSum (mx * my) (ex + ey) mz ez).2 .positive
    rw [alignedSum_value, ← hprod, ← hrz] at h
    exact h

/-! ## Infinite operands -/

/-- A number that is not finite is an infinity. -/
theorem infinite_cases (hx : IsNumber x) (h : x.isFinite = false) :
    ∃ s, x.toModel.unpack = .infinity s ∧ value x = unpackedValue (.infinity s) := by
  change x.toModel.unpack.isNaN = false at hx
  change x.toModel.unpack.isFinite = false at h
  change ∃ s, x.toModel.unpack = .infinity s ∧
    unpackedValue x.toModel.unpack = unpackedValue (.infinity s)
  revert hx h
  cases x.toModel.unpack with
  | notANumber => exact fun hx => absurd hx (by decide)
  | zero s => exact fun _ h => absurd h (by simp [UnpackedFloat.isFinite])
  | finite s m e hm => exact fun _ h => absurd h (by simp [UnpackedFloat.isFinite])
  | infinity s => exact fun _ _ => ⟨s, rfl, rfl⟩

/-- **A sum with an infinite operand** is infinite, unless the operands are opposite infinities. -/
theorem add_infinite (hx : IsNumber x) (hy : IsNumber y)
    (hinf : x.isFinite = false ∨ y.isFinite = false)
    (hpos : ¬(value x = ⊤ ∧ value y = ⊥)) (hneg : ¬(value x = ⊥ ∧ value y = ⊤)) :
    IsNumber (x + y) ∧ value (x + y) = value x + value y := by
  have hdef : x + y = .ofModel (.pack (x.toModel.unpack.add binary64 y.toModel.unpack)) := rfl
  rw [hdef]
  rcases Bool.eq_false_or_eq_true x.isFinite with hfx | hfx
  · have hfy : y.isFinite = false := hinf.resolve_left (by simp [hfx])
    obtain ⟨t, huy, hvy⟩ := infinite_cases hy hfy
    have hsum : x.toModel.unpack.add binary64 y.toModel.unpack = .infinity t := by
      rcases finite_cases hfx with ⟨s, hux, -⟩ | ⟨s, m, e, hm, hux, -⟩ <;> rw [hux, huy] <;> rfl
    have hval : value x + value y = unpackedValue (.infinity t) := by
      rw [hvy, ← coe_real hfx]
      cases t <;> simp [unpackedValue]
    rw [hsum, hval]
    exact infinity_spec t
  · obtain ⟨s, hux, hvx⟩ := infinite_cases hx hfx
    rcases Bool.eq_false_or_eq_true y.isFinite with hfy | hfy
    · have hsum : x.toModel.unpack.add binary64 y.toModel.unpack = .infinity s := by
        rcases finite_cases hfy with ⟨t, huy, -⟩ | ⟨t, n, f, hn, huy, -⟩ <;> rw [hux, huy] <;> rfl
      have hval : value x + value y = unpackedValue (.infinity s) := by
        rw [hvx, ← coe_real hfy]
        cases s <;> simp [unpackedValue]
      rw [hsum, hval]
      exact infinity_spec s
    · obtain ⟨t, huy, hvy⟩ := infinite_cases hy hfy
      rw [hux, huy, hvx, hvy]
      rw [hvx, hvy] at hpos hneg
      cases s <;> cases t
      · exact infinity_spec .negative
      · exact absurd ⟨rfl, rfl⟩ hneg
      · exact absurd ⟨rfl, rfl⟩ hpos
      · exact infinity_spec .positive

/-- What is finite after packing was finite before. -/
theorem isFinite_of_pack {u : UnpackedFloat} (h : (Float.Model.pack u).unpack.isFinite = true) :
    u.isFinite = true := by
  cases u with
  | zero s => rfl
  | finite s m e hm => rfl
  | infinity s => cases s <;> exact h
  | notANumber => exact h

/-- **A finite sum has finite operands.** -/
theorem isFinite_of_add (h : (x + y).isFinite = true) : x.isFinite = true ∧ y.isFinite = true := by
  have hsum : (x.toModel.unpack.add binary64 y.toModel.unpack).isFinite = true := isFinite_of_pack h
  change x.toModel.unpack.isFinite = true ∧ y.toModel.unpack.isFinite = true
  revert hsum
  cases x.toModel.unpack <;> cases y.toModel.unpack <;>
    simp only [UnpackedFloat.add, UnpackedFloat.isFinite, and_self, implies_true] <;>
    try split_ifs
  all_goals simp

/-- **A finite product has finite factors.** -/
theorem isFinite_of_mul (h : (x * y).isFinite = true) : x.isFinite = true ∧ y.isFinite = true := by
  have hprod : (x.toModel.unpack.mul binary64 y.toModel.unpack).isFinite = true := isFinite_of_pack h
  change x.toModel.unpack.isFinite = true ∧ y.toModel.unpack.isFinite = true
  revert hprod
  cases x.toModel.unpack <;> cases y.toModel.unpack <;>
    simp [UnpackedFloat.mul, UnpackedFloat.isFinite]

/-- **A finite absolute value** is that of a finite float. -/
theorem isFinite_of_abs (h : x.abs.isFinite = true) : x.isFinite = true := by
  have habs : x.toModel.unpack.abs.isFinite = true := isFinite_of_pack h
  change x.toModel.unpack.isFinite = true
  revert habs
  cases x.toModel.unpack <;> simp [UnpackedFloat.abs, UnpackedFloat.isFinite]

/-- Numbers that are not opposite infinities have a sum. -/
theorem isNumber_add (hx : IsNumber x) (hy : IsNumber y) (hpos : ¬(value x = ⊤ ∧ value y = ⊥))
    (hneg : ¬(value x = ⊥ ∧ value y = ⊤)) : IsNumber (x + y) := by
  by_cases hfin : x.isFinite = true ∧ y.isFinite = true
  · exact (add_spec hfin.1 hfin.2).1
  · rw [not_and_or, Bool.not_eq_true, Bool.not_eq_true] at hfin
    exact (add_infinite hx hy hfin hpos hneg).1

/-- **Opposite infinities have no sum.** -/
theorem add_opposite (hx : IsNumber x) (hy : IsNumber y)
    (h : value x = ⊤ ∧ value y = ⊥ ∨ value x = ⊥ ∧ value y = ⊤) : ¬IsNumber (x + y) := by
  obtain ⟨s, hux, hvx⟩ := infinite_cases hx (isFinite_eq_false (by tauto))
  obtain ⟨t, huy, hvy⟩ := infinite_cases hy (isFinite_eq_false (by tauto))
  change ¬((Float.Model.pack (x.toModel.unpack.add binary64 y.toModel.unpack)).unpack.isNaN = false)
  rw [hvx, hvy] at h
  rw [hux, huy]
  cases s <;> cases t
  · simp [unpackedValue] at h
  · exact fun hnan => Bool.noConfusion hnan
  · exact fun hnan => Bool.noConfusion hnan
  · simp [unpackedValue] at h

/-- **A difference adds the negative.** -/
theorem sub_infinite (hx : IsNumber x) (hy : IsNumber y)
    (hinf : x.isFinite = false ∨ y.isFinite = false)
    (hpos : ¬(value x = ⊤ ∧ value y = ⊤)) (hneg : ¬(value x = ⊥ ∧ value y = ⊥)) :
    IsNumber (x - y) ∧ value (x - y) = value x - value y := by
  have hdef : x - y = .ofModel (.pack (x.toModel.unpack.sub binary64 y.toModel.unpack)) := rfl
  rw [hdef]
  rcases Bool.eq_false_or_eq_true x.isFinite with hfx | hfx
  · have hfy : y.isFinite = false := hinf.resolve_left (by simp [hfx])
    obtain ⟨t, huy, hvy⟩ := infinite_cases hy hfy
    have hdiff : x.toModel.unpack.sub binary64 y.toModel.unpack = .infinity (-t) := by
      rcases finite_cases hfx with ⟨s, hux, -⟩ | ⟨s, m, e, hm, hux, -⟩ <;> rw [hux, huy] <;> rfl
    have hval : value x - value y = unpackedValue (.infinity (-t)) := by
      rw [hvy, ← coe_real hfx]
      cases t
      · exact EReal.sub_bot (EReal.coe_ne_bot _)
      · exact EReal.sub_top _
    rw [hdiff, hval]
    exact infinity_spec (-t)
  · obtain ⟨s, hux, hvx⟩ := infinite_cases hx hfx
    rcases Bool.eq_false_or_eq_true y.isFinite with hfy | hfy
    · have hdiff : x.toModel.unpack.sub binary64 y.toModel.unpack = .infinity s := by
        rcases finite_cases hfy with ⟨t, huy, -⟩ | ⟨t, n, f, hn, huy, -⟩ <;> rw [hux, huy] <;> rfl
      have hval : value x - value y = unpackedValue (.infinity s) := by
        rw [hvx, ← coe_real hfy]
        cases s
        · exact EReal.bot_sub _
        · exact EReal.top_sub_coe _
      rw [hdiff, hval]
      exact infinity_spec s
    · obtain ⟨t, huy, hvy⟩ := infinite_cases hy hfy
      rw [hux, huy, hvx, hvy]
      rw [hvx, hvy] at hpos hneg
      cases s <;> cases t
      · exact absurd ⟨rfl, rfl⟩ hneg
      · exact infinity_spec .negative
      · exact infinity_spec .positive
      · exact absurd ⟨rfl, rfl⟩ hpos

/-- An infinity times anything but zero is infinite. -/
theorem mul_eq_infinite {u v : EReal} (hu : u = ⊤ ∨ u = ⊥) (hv : v ≠ 0) :
    u * v = ⊤ ∨ u * v = ⊥ := by
  rcases hv.lt_or_gt with hneg | hpos <;> rcases hu with rfl | rfl
  · exact .inr (EReal.top_mul_of_neg hneg)
  · exact .inl (EReal.bot_mul_of_neg hneg)
  · exact .inl (EReal.top_mul_of_pos hpos)
  · exact .inr (EReal.bot_mul_of_pos hpos)

/-- The product of two infinities. -/
theorem unpackedValue_infinity_mul (s t : Sign) :
    unpackedValue (.infinity (s * t)) = unpackedValue (.infinity s) * unpackedValue (.infinity t) := by
  cases s <;> cases t
  · exact EReal.bot_mul_bot.symm
  · exact EReal.bot_mul_top.symm
  · exact EReal.top_mul_bot.symm
  · exact EReal.top_mul_top.symm

/-- An infinity times a real number of known sign. -/
theorem unpackedValue_infinity_mul_coe (s t : Sign) {r : ℝ} (hr : 0 < r) :
    unpackedValue (.infinity (s * t))
      = unpackedValue (.infinity s) * ((signFactor t * r : ℝ) : EReal) := by
  have hpos : signFactor .positive * r > 0 := by rw [signFactor, one_mul]; exact hr
  have hneg : signFactor .negative * r < 0 := by rw [signFactor, neg_one_mul]; linarith
  cases s <;> cases t
  · exact (EReal.bot_mul_coe_of_neg hneg).symm
  · exact (EReal.bot_mul_coe_of_pos hpos).symm
  · exact (EReal.top_mul_coe_of_neg hneg).symm
  · exact (EReal.top_mul_coe_of_pos hpos).symm

theorem sign_mul_comm (s t : Sign) : s * t = t * s := by
  cases s <;> cases t <;> rfl

/-- **A product with an infinite operand** is infinite, unless the other operand is zero. -/
theorem mul_infinite (hx : IsNumber x) (hy : IsNumber y)
    (hinf : x.isFinite = false ∨ y.isFinite = false) (hx0 : value x ≠ 0) (hy0 : value y ≠ 0) :
    IsNumber (x * y) ∧ value (x * y) = value x * value y := by
  have hdef : x * y = .ofModel (.pack (x.toModel.unpack.mul binary64 y.toModel.unpack)) := rfl
  rw [hdef]
  rcases Bool.eq_false_or_eq_true x.isFinite with hfx | hfx
  · obtain ⟨t, huy, hvy⟩ := infinite_cases hy (hinf.resolve_left (by simp [hfx]))
    rcases finite_cases hfx with ⟨s, -, hrx⟩ | ⟨s, m, e, hm, hux, hrx, -⟩
    · exact absurd (by rw [← coe_real hfx, hrx]; rfl) hx0
    · have hpos : (0 : ℝ) < m * (2 : ℝ) ^ e := mul_pos (by exact_mod_cast hm) (zpow_two_pos e)
      rw [hux, huy, hvy, ← coe_real hfx, hrx, EReal.mul_comm,
        ← unpackedValue_infinity_mul_coe t s hpos, sign_mul_comm]
      exact infinity_spec (s * t)
  · obtain ⟨s, hux, hvx⟩ := infinite_cases hx hfx
    rcases Bool.eq_false_or_eq_true y.isFinite with hfy | hfy
    · rcases finite_cases hfy with ⟨t, -, hry⟩ | ⟨t, n, f, hn, huy, hry, -⟩
      · exact absurd (by rw [← coe_real hfy, hry]; rfl) hy0
      · have hpos : (0 : ℝ) < n * (2 : ℝ) ^ f := mul_pos (by exact_mod_cast hn) (zpow_two_pos f)
        rw [hux, huy, hvx, ← coe_real hfy, hry, ← unpackedValue_infinity_mul_coe s t hpos]
        exact infinity_spec (s * t)
    · obtain ⟨t, huy, hvy⟩ := infinite_cases hy hfy
      rw [hux, huy, hvx, hvy, ← unpackedValue_infinity_mul]
      exact infinity_spec (s * t)

/-- **A quotient by an infinity** is zero. -/
theorem div_of_infinite (hx : x.isFinite = true) (hy : IsNumber y) (hinf : y.isFinite = false) :
    IsNumber (x / y) ∧ value (x / y) = 0 := by
  have hdef : x / y = .ofModel (.pack (x.toModel.unpack.div binary64 y.toModel.unpack)) := rfl
  obtain ⟨t, huy, -⟩ := infinite_cases hy hinf
  rw [hdef, huy]
  rcases finite_cases hx with ⟨s, hux, -⟩ | ⟨s, m, e, hm, hux, -⟩ <;> rw [hux] <;> exact zero_spec _

/-- **A quotient of an infinity** by a positive number is that infinity. -/
theorem infinite_div (hx : IsNumber x) (hinf : x.isFinite = false) (hy : y.isFinite = true)
    (hpos : 0 < real y) : IsNumber (x / y) ∧ value (x / y) = value x := by
  have hdef : x / y = .ofModel (.pack (x.toModel.unpack.div binary64 y.toModel.unpack)) := rfl
  obtain ⟨s, hux, hvx⟩ := infinite_cases hx hinf
  rcases finite_cases hy with ⟨t, -, hry⟩ | ⟨t, n, f, hn, huy, hry, -⟩
  · exact absurd hry hpos.ne'
  · have hsize : (0 : ℝ) < n * (2 : ℝ) ^ f := mul_pos (by exact_mod_cast hn) (zpow_two_pos f)
    have ht : t = .positive := by
      cases t with
      | positive => rfl
      | negative =>
        rw [hry, signFactor, neg_one_mul] at hpos
        linarith
    rw [hdef, hux, huy, hvx, ht]
    cases s <;> exact infinity_spec _

/-! ## NaN operands -/

theorem not_isNumber_of_pack {u : UnpackedFloat} (h : u = .notANumber) :
    ¬IsNumber (.ofModel (.pack u)) := by
  subst h
  exact fun hnum => Bool.noConfusion hnum

theorem isFinite_of_not_isNumber (h : ¬IsNumber x) : x.isFinite = false :=
  Bool.eq_false_iff.mpr fun hfin => h (isNumber_of_isFinite hfin)

theorem not_isNumber_neg (h : ¬IsNumber x) : ¬IsNumber (-x) := by
  refine not_isNumber_of_pack (u := x.toModel.unpack.neg) ?_
  rw [unpack_of_not_isNumber h]
  rfl

theorem isNumber_of_neg (h : IsNumber (-x)) : IsNumber x := by_contra fun hx => not_isNumber_neg hx h

theorem isFinite_of_neg (h : (-x).isFinite = true) : x.isFinite = true := by
  have hx := isNumber_of_neg (isNumber_of_isFinite h)
  refine isFinite_of_value hx (r := -real (-x)) ?_
  rw [EReal.coe_neg, coe_real h, (neg_spec hx).2, neg_neg]

/-- **A finite difference has finite operands.** -/
theorem isFinite_of_sub (h : (x - y).isFinite = true) : x.isFinite = true ∧ y.isFinite = true := by
  rw [sub_eq_add_opposite] at h
  exact (isFinite_of_add h).imp_right isFinite_of_neg

/-- **A NaN operand makes every sum, difference and product a NaN.** -/
theorem not_isNumber_add (h : ¬IsNumber x ∨ ¬IsNumber y) : ¬IsNumber (x + y) := by
  refine not_isNumber_of_pack (u := x.toModel.unpack.add binary64 y.toModel.unpack) ?_
  rcases h with h | h <;> rw [unpack_of_not_isNumber h]
  · rfl
  · cases x.toModel.unpack <;> rfl

theorem not_isNumber_sub (h : ¬IsNumber x ∨ ¬IsNumber y) : ¬IsNumber (x - y) := by
  refine not_isNumber_of_pack (u := x.toModel.unpack.sub binary64 y.toModel.unpack) ?_
  rcases h with h | h <;> rw [unpack_of_not_isNumber h]
  · rfl
  · cases x.toModel.unpack <;> rfl

theorem not_isNumber_mul (h : ¬IsNumber x ∨ ¬IsNumber y) : ¬IsNumber (x * y) := by
  refine not_isNumber_of_pack (u := x.toModel.unpack.mul binary64 y.toModel.unpack) ?_
  rcases h with h | h <;> rw [unpack_of_not_isNumber h]
  · rfl
  · cases x.toModel.unpack <;> rfl

theorem isNumber_of_add (h : IsNumber (x + y)) : IsNumber x ∧ IsNumber y :=
  ⟨by_contra fun hx => not_isNumber_add (.inl hx) h, by_contra fun hy => not_isNumber_add (.inr hy) h⟩

/-- A sum that is a number, of an infinite operand with any other, is the sum of the values. -/
theorem value_add_of_infinite (h : IsNumber (x + y)) (hinf : x.isFinite = false ∨ y.isFinite = false) :
    value (x + y) = value x + value y := by
  obtain ⟨hx, hy⟩ := isNumber_of_add h
  exact (add_infinite hx hy hinf (fun h' => add_opposite hx hy (.inl h') h)
    fun h' => add_opposite hx hy (.inr h') h).2

/-- **Rounded addition is monotone**, as far as the sums are numbers. -/
theorem value_add_le {x' y' : Float} (h : IsNumber (x + y)) (h' : IsNumber (x' + y'))
    (hx : value x ≤ value x') (hy : value y ≤ value y') : value (x + y) ≤ value (x' + y') := by
  by_cases hfin : x.isFinite = true ∧ y.isFinite = true
  · by_cases hfin' : x'.isFinite = true ∧ y'.isFinite = true
    · rw [← coe_real hfin.1, ← coe_real hfin'.1, EReal.coe_le_coe_iff] at hx
      rw [← coe_real hfin.2, ← coe_real hfin'.2, EReal.coe_le_coe_iff] at hy
      rw [(add_spec hfin.1 hfin.2).2, (add_spec hfin'.1 hfin'.2).2]
      exact clamp_mono (rounded_mono (add_le_add hx hy))
    · -- from finite operands upwards only the upper infinity can be reached
      rw [not_and_or, Bool.not_eq_true, Bool.not_eq_true] at hfin'
      have hbot : ∀ {u v : Float}, u.isFinite = true → value u ≤ value v → value v ≠ ⊥ :=
        fun hu hle hv => by
          rw [hv, le_bot_iff, ← coe_real hu] at hle
          exact EReal.coe_ne_bot _ hle
      have hx' := hbot hfin.1 hx
      have hy' := hbot hfin.2 hy
      rw [value_add_of_infinite h' hfin']
      refine le_of_le_of_eq le_top (Eq.symm ?_)
      rcases hfin' with hinf | hinf
      · rw [((isNumber_of_add h').1.value_of_not_isFinite hinf).resolve_right hx']
        exact EReal.top_add_of_ne_bot hy'
      · rw [((isNumber_of_add h').2.value_of_not_isFinite hinf).resolve_right hy']
        exact EReal.add_top_of_ne_bot hx'
  · rw [not_and_or, Bool.not_eq_true, Bool.not_eq_true] at hfin
    rw [value_add_of_infinite h hfin]
    by_cases hfin' : x'.isFinite = true ∧ y'.isFinite = true
    · -- below finite operands lies only the lower infinity
      have htop : ∀ {u v : Float}, v.isFinite = true → value u ≤ value v → value u ≠ ⊤ :=
        fun hv hle hu => by
          rw [hu, top_le_iff, ← coe_real hv] at hle
          exact EReal.coe_ne_top _ hle
      refine le_of_eq_of_le (EReal.add_eq_bot_iff.mpr ?_) bot_le
      exact hfin.imp
        (fun hinf => ((isNumber_of_add h).1.value_of_not_isFinite hinf).resolve_left (htop hfin'.1 hx))
        fun hinf => ((isNumber_of_add h).2.value_of_not_isFinite hinf).resolve_left (htop hfin'.2 hy)
    · rw [not_and_or, Bool.not_eq_true, Bool.not_eq_true] at hfin'
      rw [value_add_of_infinite h' hfin']
      exact add_le_add hx hy

/-! ## Whole numbers -/

/-- **Every whole number below `2 ^ 53` is a float.** -/
theorem natCast_spec {n : ℕ} (h : n < 2 ^ 53) : (n : Float).isFinite = true ∧ real n = n := by
  have hdef : (n : Float) = n.toUInt64.toFloat * Float.ofBits 0x3FF0000000000000 := by
    change Float.ofScientific n false 0 = _
    rw [Float.ofScientific, dif_pos ⟨h, by norm_num⟩, if_neg Bool.false_ne_true]
    rfl
  have hword : n.toUInt64.toNat = n := by
    exact (UInt64.toNat_ofNat' ..).trans (Nat.mod_eq_of_lt (by norm_num at h ⊢; omega))
  have hcount : IsNumber n.toUInt64.toFloat ∧
      value n.toUInt64.toFloat = clamp (rounded ((n : ℤ) * (2 : ℝ) ^ (0 : ℤ))) := by
    have hmodel : n.toUInt64.toFloat
        = .ofModel (.pack (normalize binary64 (n.toUInt64.toNat : ℤ) 0 .positive)) := rfl
    rw [hmodel, hword]
    exact value_normalize n 0 .positive
  have hlt : |(n : ℝ)| < limit := by
    rw [abs_of_nonneg n.cast_nonneg]
    calc (n : ℝ) < 2 ^ 53 := by exact_mod_cast h
      _ = (2 : ℝ) ^ (53 : ℤ) := by norm_num
      _ < limit := zpow_two_lt (by norm_num)
  have hrep : Representable (n : ℝ) := by
    refine representable_of_onGrid (e := 0) (by norm_num) ⟨n, by simp⟩ ?_
    rw [abs_of_nonneg n.cast_nonneg]
    exact_mod_cast h.le
  rw [zpow_zero, mul_one, Int.cast_natCast, rounded_eq hrep, clamp_of_lt hlt] at hcount
  have hone : (Float.ofBits 0x3FF0000000000000).isFinite = true ∧
      real (Float.ofBits 0x3FF0000000000000) = 1 := by
    have hunpack : (Float.ofBits 0x3FF0000000000000).toModel.unpack
        = .finite .positive (2 ^ 52) (-52) (by norm_num) := rfl
    refine ⟨by decide, real_eq_of_value (r := 1) ?_⟩
    rw [value, hunpack, unpackedValue, signFactor, one_mul]
    norm_num
  have hprod := mul_spec (isFinite_of_value hcount.1 hcount.2) hone.1
  rw [hone.2, mul_one, real_eq_of_value hcount.2, rounded_eq hrep, clamp_of_lt hlt, ← hdef] at hprod
  exact ⟨isFinite_of_value hprod.1 hprod.2, real_eq_of_value hprod.2⟩

theorem clamp_nonneg {r : ℝ} (h : 0 ≤ r) : 0 ≤ clamp r := by
  have hmono := clamp_mono h
  rwa [clamp_of_lt (by rw [abs_zero]; exact limit_pos)] at hmono

/-- A whole number of any size, rounded, is not negative. -/
theorem natCast_nonneg (n : ℕ) : 0 ≤ value (n : Float) := by
  by_cases hn : n < 2 ^ 53
  · obtain ⟨hfin, hreal⟩ := natCast_spec hn
    rw [← coe_real hfin, hreal]
    exact_mod_cast n.cast_nonneg
  · have hn0 : n ≠ 0 := by omega
    have hdef : (n : Float) = .ofModel (.pack
        (roundWithAccuracy binary64 .positive (n <<< 53 * 1) (-53 + 0) .exact)) := by
      have hhigh : ¬(0 : ℤ) > 2 ^ binary64.exponentBits := by decide
      have hlow : ¬(0 : ℤ) < -((2 ^ binary64.exponentBits : ℤ) + n.log2) := by
        have hpow : (0 : ℤ) < 2 ^ binary64.exponentBits := by decide
        omega
      change Float.ofScientific n false 0 = _
      rw [Float.ofScientific, dif_neg fun h => hn h.1, if_neg Bool.false_ne_true]
      change Float.ofModel (.pack (UnpackedFloat.ofScientific binary64 n 0)) = _
      rw [UnpackedFloat.ofScientific, dif_neg hn0, if_neg hhigh, if_neg hlow, if_pos le_rfl]
      rfl
    rw [hdef, (value_roundWithAccuracy .positive (.exact _) _).2, signFactor, one_mul]
    · exact clamp_nonneg (le_rounded representable_zero
        (mul_nonneg (Nat.cast_nonneg _) (zpow_two_pos _).le))
    · -- a significand of so many places only loses some of them
      have hlog : 52 ≤ (n <<< 53 * 1).log2 := by
        rw [Nat.le_log2 (by rw [Nat.shiftLeft_eq]; positivity), Nat.shiftLeft_eq]
        omega
      rw [targetExponent_eq]
      omega

end CertifiedZeros.Binary64
