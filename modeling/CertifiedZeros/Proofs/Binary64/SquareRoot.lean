import CertifiedZeros.Proofs.Binary64.Operations

/-! # The square root of a float

The square root of a significand is taken in whole numbers, with so many places that the remainder
only decides how the rest compares with a half:

* **`holds_sqrt`** — the whole root and its accuracy hold the exact root.
* **`sqrt_spec`** — the square root of a finite float that is not negative is rounded once. -/

namespace CertifiedZeros.Binary64

open Float.Model (UnpackedFloat totalExponent)
open Float.Model.Format (binary64)
open Float.Model.UnpackedFloat

/-- **The accuracy of a whole root** says what the remainder leaves. The root never lies half way
between two whole numbers, because the square of such a number is none. -/
theorem holds_sqrt (m : ℕ) :
    Holds (.ofMantissaAndAccuracy m.sqrt (if m - m.sqrt * m.sqrt = 0 then .exact
      else .inexact (if m - m.sqrt * m.sqrt ≤ m.sqrt then .lt else .gt))) (√m) := by
  have hle : m.sqrt * m.sqrt ≤ m := Nat.sqrt_le m
  have hlower : (m.sqrt : ℝ) ≤ √m := Real.nat_sqrt_le_real_sqrt
  have hupper : √(m : ℝ) < m.sqrt + 1 := Real.real_sqrt_lt_nat_sqrt_succ
  have hsq : √(m : ℝ) ^ 2 = m := Real.sq_sqrt m.cast_nonneg
  have hroot : (0 : ℝ) ≤ m.sqrt := Nat.cast_nonneg _
  split_ifs with h0 hlow
  · have hexact : (m : ℝ) = m.sqrt * m.sqrt := by exact_mod_cast (by omega : m = m.sqrt * m.sqrt)
    have hequal : √(m : ℝ) = m.sqrt := by rw [hexact, Real.sqrt_mul_self hroot]
    rw [hequal]
    exact .exact _
  · have hbelow : (m : ℝ) ≤ m.sqrt * m.sqrt + m.sqrt := by
      exact_mod_cast (by omega : m ≤ m.sqrt * m.sqrt + m.sqrt)
    have hne : √(m : ℝ) - m.sqrt ≠ 0 := fun h => by
      rw [sub_eq_zero.mp h] at hsq
      have hexact : m.sqrt * m.sqrt = m := by
        rw [← sq]
        exact_mod_cast hsq
      omega
    refine ⟨√m - m.sqrt, by linarith, by nlinarith, ?_, ?_⟩
    · simpa [ExtendedMantissa.ofMantissaAndAccuracy] using hne
    · simp [ExtendedMantissa.ofMantissaAndAccuracy]
  · have habove : (m.sqrt : ℝ) * m.sqrt + m.sqrt + 1 ≤ m := by
      exact_mod_cast (by omega : m.sqrt * m.sqrt + m.sqrt + 1 ≤ m)
    have hhalf : (m.sqrt : ℝ) + 1 / 2 < √m := by nlinarith
    refine ⟨√m - m.sqrt - 1 / 2, by linarith, by linarith, ?_, ?_⟩
    · simpa [ExtendedMantissa.ofMantissaAndAccuracy] using (by linarith : √(m : ℝ) - m.sqrt - 1 / 2 ≠ 0)
    · simp only [ExtendedMantissa.ofMantissaAndAccuracy, if_true]
      ring

/-- **The square root of a finite float that is not negative is rounded once.** -/
theorem sqrt_spec {x : Float} (hx : x.isFinite = true) (h0 : 0 ≤ real x) :
    IsNumber x.sqrt ∧ value x.sqrt = clamp (rounded (√(real x))) := by
  have hdef : x.sqrt = .ofModel (.pack (x.toModel.unpack.sqrt binary64)) := rfl
  rw [hdef]
  rcases finite_cases hx with ⟨s, hux, hrx⟩ | ⟨s, m, e, hm, hux, hrx, -⟩
  · rw [hux, hrx, Real.sqrt_zero, clamp_rounded_zero]
    exact zero_spec s
  have hpos : (0 : ℝ) < m * (2 : ℝ) ^ e := mul_pos (by exact_mod_cast hm) (zpow_two_pos e)
  cases s with
  | negative =>
    rw [hrx, signFactor] at h0
    linarith
  | positive =>
    obtain ⟨g, hg⟩ : ∃ g : ℤ, min (e.ediv 2)
        (binary64.targetExponent ((totalExponent m e + 1).ediv 2)) = g := ⟨_, rfl⟩
    obtain ⟨k, hk⟩ : ∃ k : ℕ, (e - 2 * g).toNat = k := ⟨_, rfl⟩
    have hcore : UnpackedFloat.sqrt binary64 (.finite .positive m e hm)
        = roundWithAccuracy binary64 .positive (m <<< k).sqrt g
          (if m <<< k - (m <<< k).sqrt * (m <<< k).sqrt = 0 then .exact
            else .inexact (if m <<< k - (m <<< k).sqrt * (m <<< k).sqrt ≤ (m <<< k).sqrt then .lt
              else .gt)) := by
      rw [← hk, ← hg]
      rfl
    have htarget : g ≤ max (((m.log2 : ℤ) + 1 + e + 1) / 2 - 53) (-1074) ∧ g ≤ e / 2 :=
      ⟨hg ▸ min_le_right _ _, hg ▸ min_le_left _ _⟩
    have hke : e = g + g + k := by omega
    have hbits : g ≤ binary64.targetExponent (totalExponent (m <<< k).sqrt g) := by
      rw [targetExponent_eq]
      rcases le_or_gt g (-1074) with hsub | hnormal
      · omega
      · -- the shifted significand has so many places that its root has 53 of them
        have hroot : 2 ^ 52 ≤ (m <<< k).sqrt := by
          rw [Nat.le_sqrt, Nat.shiftLeft_eq]
          calc 2 ^ 52 * 2 ^ 52 = 2 ^ 104 := by norm_num
            _ ≤ 2 ^ (m.log2 + k) := Nat.pow_le_pow_right (by norm_num) (by omega)
            _ = 2 ^ m.log2 * 2 ^ k := pow_add _ _ _
            _ ≤ m * 2 ^ k := Nat.mul_le_mul_right _ (Nat.log2_self_le hm.ne')
        have := (Nat.le_log2 (by omega)).mpr hroot
        omega
    have hvalue : √(real x) = √((m <<< k : ℕ) : ℝ) * (2 : ℝ) ^ g := by
      have hsplit : real x = (m <<< k : ℕ) * ((2 : ℝ) ^ g) ^ 2 := by
        rw [hrx, signFactor, one_mul, hke, zpow_add₀ (by norm_num), zpow_add₀ (by norm_num),
          zpow_natCast, Nat.shiftLeft_eq]
        push_cast
        ring
      rw [hsplit, Real.sqrt_mul (Nat.cast_nonneg _), Real.sqrt_sq (zpow_two_pos g).le]
    have h := value_roundWithAccuracy .positive (holds_sqrt (m <<< k)) hbits
    rw [signFactor, one_mul, ← hvalue] at h
    rw [hux, hcore]
    exact h

end CertifiedZeros.Binary64
