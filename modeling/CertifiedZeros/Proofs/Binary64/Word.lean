import CertifiedZeros.Binary64.Basic
import CertifiedZeros.Proofs.Binary64.Rounding

/-! # Words and their values

The word of a float, its sign bit apart, counts the floats of that sign from zero up to infinity.
Packing and unpacking are read through this count:

* **`ofWord s w`** — the unpacked float with sign `s` and count `w`. `unpack_eq_ofWord` says that
  unpacking is nothing else, and `unpack_pack_ofWord` that packing undoes it.
* **`magnitude w`** — the value of the count `w`. It is strictly monotone, so neighbouring words are
  neighbouring values, and `exists_magnitude` says that it misses no representable number. -/

namespace CertifiedZeros.Binary64

open Float.Model (UnpackedFloat)
open Float.Model.Format (binary64)
open Float.Model.UnpackedFloat

/-! ## The count of a word -/

/-- **The count of infinity**; larger counts are NaNs. -/
def infinityWord : ℕ := 2047 * 2 ^ 52

/-- The exponent that belongs to a count: subnormal numbers share that of the least normal ones. -/
def wordExponent (w : ℕ) : ℤ := max (w / 2 ^ 52 : ℕ) 1 - 1075

/-- The significand that belongs to a count, its leading bit included. -/
def wordSignificand (w : ℕ) : ℕ := if w < 2 ^ 52 then w else 2 ^ 52 + w % 2 ^ 52

theorem wordSignificand_pos {w : ℕ} (h : w ≠ 0) : 0 < wordSignificand w := by
  unfold wordSignificand
  split <;> omega

/-- **The unpacked float with sign `s` and count `w`.** -/
def ofWord (s : Sign) (w : ℕ) : UnpackedFloat :=
  if infinityWord < w then .notANumber
  else if w = infinityWord then .infinity s
  else if h : w = 0 then .zero s
  else .finite s (wordSignificand w) (wordExponent w) (wordSignificand_pos h)

/-- The sign bit as a number. -/
def signBit (s : Sign) : ℕ := s.toBitVec.toNat

theorem signBit_positive : signBit .positive = 0 := rfl

theorem signBit_negative : signBit .negative = 1 := rfl

theorem signBit_lt (s : Sign) : signBit s < 2 := s.toBitVec.isLt

theorem toNat_packComponents (s : Sign) (e : BitVec 11) (m : BitVec 52) :
    (packComponents binary64 s e m).toNat = signBit s * 2 ^ 63 + e.toNat * 2 ^ 52 + m.toNat := by
  have hhead : (s.toBitVec ++ e).toNat = signBit s * 2 ^ 11 + e.toNat := by
    rw [BitVec.toNat_append, ← Nat.shiftLeft_add_eq_or_of_lt e.isLt, Nat.shiftLeft_eq, signBit]
  have hall : (packComponents binary64 s e m).toNat = (s.toBitVec ++ e).toNat * 2 ^ 52 + m.toNat := by
    rw [← Nat.shiftLeft_eq, Nat.shiftLeft_add_eq_or_of_lt m.isLt, ← BitVec.toNat_append]
    rfl
  rw [hall, hhead]
  ring

theorem toNat_unpackMantissa (b : BitVec 64) :
    (@unpackMantissa binary64 b).toNat = b.toNat % 2 ^ 52 := by
  simp [unpackMantissa, BitVec.extractLsb]

theorem toNat_unpackExponent (b : BitVec 64) :
    (@unpackExponent binary64 b).toNat = b.toNat / 2 ^ 52 % 2 ^ 11 := by
  simp [unpackExponent, BitVec.extractLsb, Nat.shiftRight_eq_div_pow]

theorem toNat_unpackSign (b : BitVec 64) :
    (@unpackSign binary64 b).toNat = b.toNat / 2 ^ 63 := by
  have := b.isLt
  simp [unpackSign, BitVec.extractLsb, Nat.shiftRight_eq_div_pow]
  omega

/-- **Unpacking reads the count.** -/
theorem unpack_eq_ofWord (b : BitVec 64) :
    unpack binary64 b
      = ofWord (Sign.ofBitVec (@unpackSign binary64 b)) (b.toNat % 2 ^ 63) := by
  have hword : b.toNat % 2 ^ 63
      = (@unpackExponent binary64 b).toNat * 2 ^ 52
        + (@unpackMantissa binary64 b).toNat := by
    rw [toNat_unpackMantissa, toNat_unpackExponent]
    omega
  rw [hword]
  have hm : (@unpackMantissa binary64 b).toNat < 2 ^ 52 := BitVec.isLt _
  have he : (@unpackExponent binary64 b).toNat < 2 ^ 11 := BitVec.isLt _
  have hbias : (binary64.exponentBias : ℤ) = 1023 := by decide
  have hones : @unpackExponent binary64 b = -1#11
      ↔ (@unpackExponent binary64 b).toNat = 2047 := by
    rw [← BitVec.toNat_inj]; simp
  have hzero : @unpackExponent binary64 b = 0#11
      ↔ (@unpackExponent binary64 b).toNat = 0 := by
    rw [← BitVec.toNat_inj]; simp
  have hmzero : @unpackMantissa binary64 b = 0#52
      ↔ (@unpackMantissa binary64 b).toNat = 0 := by
    rw [← BitVec.toNat_inj]; simp
  have happend : (1#1 ++ @unpackMantissa binary64 b).toNat
      = 2 ^ 52 + (@unpackMantissa binary64 b).toNat := by
    rw [BitVec.toNat_append, ← Nat.shiftLeft_add_eq_or_of_lt hm]
    simp [Nat.shiftLeft_eq]
  unfold unpack ofWord infinityWord wordExponent wordSignificand
  simp only [hones, hzero, hmzero, happend, hbias]
  split_ifs
  all_goals first | rfl | omega | (simp only [finite.injEq, true_and]; omega)

/-- **Packing writes the count**, as long as it is not that of a NaN. -/
theorem toNat_pack_ofWord (s : Sign) {w : ℕ} (hw : w ≤ infinityWord) :
    (pack binary64 (ofWord s w)).toNat = signBit s * 2 ^ 63 + w := by
  have hbias : (binary64.exponentBias : ℤ) = 1023 := by decide
  unfold infinityWord at hw
  unfold ofWord infinityWord
  rw [if_neg (by omega)]
  split_ifs with htop h0
  · rw [pack, packedInfinity, toNat_packComponents, htop]
    simp
  · rw [pack, packedZero, toNat_packComponents, h0]
    simp
  · have hexp : (wordExponent w + (binary64.exponentBias : ℤ)
        + binary64.mantissaBitsWithoutImplicit).toNat = max (w / 2 ^ 52) 1 := by
      rw [hbias, wordExponent]
      push_cast
      omega
    rw [pack]
    simp only [hexp, wordSignificand]
    rw [if_neg (by norm_num; omega)]
    split_ifs with hsub hbits hbits
    · have hlog : w.log2 < 52 := (Nat.log2_lt h0).mpr hsub
      simp only [Float.Model.Format.mantissaBits] at hbits
      omega
    · rw [toNat_packComponents, BitVec.toNat_ofNat, BitVec.toNat_ofNat, Nat.mod_eq_of_lt hsub]
      simp
    · rw [toNat_packComponents, BitVec.toNat_ofNat, BitVec.toNat_ofNat]
      omega
    · have hlog : (2 ^ 52 + w % 2 ^ 52).log2 = 52 := by
        rw [Nat.log2_eq_iff (by omega)]
        omega
      exact absurd (by rw [hlog]; rfl) hbits

theorem ofBitVec_eq {s : Sign} {b : BitVec 1} (h : b.toNat = signBit s) :
    Sign.ofBitVec b = s := by
  have hb : b = s.toBitVec := BitVec.eq_of_toNat_eq h
  rw [hb]
  cases s <;> rfl

/-- **Unpacking undoes packing**, up to infinity. -/
theorem unpack_pack_ofWord (s : Sign) {w : ℕ} (hw : w ≤ infinityWord) :
    unpack binary64 (pack binary64 (ofWord s w)) = ofWord s w := by
  have hword := toNat_pack_ofWord s hw
  unfold infinityWord at hw
  rw [unpack_eq_ofWord, hword, ofBitVec_eq (s := s)]
  · congr 1
    omega
  · rw [toNat_unpackSign, hword]
    omega

/-- **The finite floats of the format** are those with a count. The significand has its leading
bit, unless the exponent is the lowest one. -/
theorem finite_eq_ofWord (s : Sign) {m : ℕ} {e : ℤ} (hpos : 0 < m) (hm : m < 2 ^ 53)
    (hlo : -1074 ≤ e) (hnormal : 2 ^ 52 ≤ m ∨ e = -1074) (hhi : e ≤ 971) :
    finite s m e hpos = ofWord s ((e + 1074).toNat * 2 ^ 52 + m) := by
  obtain ⟨k, hk⟩ : ∃ k : ℕ, e = k - 1074 := ⟨(e + 1074).toNat, by omega⟩
  have htoNat : (e + 1074).toNat = k := by omega
  rw [htoNat]
  unfold ofWord infinityWord wordExponent wordSignificand
  split_ifs
  all_goals first | omega | (simp only [finite.injEq, true_and]; omega)

/-! ## The value of a count -/

/-- **The value of the count `w`.** -/
noncomputable def magnitude (w : ℕ) : ℝ :=
  wordSignificand w * (2 : ℝ) ^ wordExponent w

/-- The count that follows is one unit in the last place above. -/
theorem magnitude_succ (w : ℕ) :
    magnitude (w + 1) = magnitude w + (2 : ℝ) ^ wordExponent w := by
  rcases Nat.lt_or_ge (w + 1) (2 ^ 53) with hsmall | hlarge
  · have he : ∀ v < 2 ^ 53, wordExponent v = -1074 := fun v hv => by
      unfold wordExponent
      omega
    have hm : ∀ v < 2 ^ 53, wordSignificand v = v := fun v hv => by
      unfold wordSignificand
      split_ifs <;> omega
    unfold magnitude
    rw [he w (by omega), he _ hsmall, hm w (by omega), hm _ hsmall]
    push_cast
    ring
  · have hm : wordSignificand w = 2 ^ 52 + w % 2 ^ 52 := if_neg (by omega)
    have hm' : wordSignificand (w + 1) = 2 ^ 52 + (w + 1) % 2 ^ 52 := if_neg (by omega)
    unfold magnitude
    rw [hm, hm']
    rcases Nat.lt_or_ge (w % 2 ^ 52 + 1) (2 ^ 52) with hstay | hcarry
    · have he : wordExponent (w + 1) = wordExponent w := by unfold wordExponent; omega
      rw [he, show (w + 1) % 2 ^ 52 = w % 2 ^ 52 + 1 by omega]
      push_cast
      ring
    · have he : wordExponent (w + 1) = wordExponent w + (1 : ℕ) := by unfold wordExponent; omega
      rw [he, zpow_two_add, show (w + 1) % 2 ^ 52 = 0 by omega,
        show w % 2 ^ 52 = 4503599627370495 by omega]
      push_cast
      ring

/-- **Words count upwards with their values.** -/
theorem magnitude_strictMono : StrictMono magnitude :=
  strictMono_nat_of_lt_succ fun w => by
    rw [magnitude_succ]
    linarith [zpow_two_pos (wordExponent w)]

@[simp] theorem magnitude_zero : magnitude 0 = 0 := by simp [magnitude, wordSignificand]

theorem magnitude_nonneg (w : ℕ) : 0 ≤ magnitude w := by
  have := magnitude_strictMono.monotone (Nat.zero_le w)
  rwa [magnitude_zero] at this

/-- Infinity comes where the next power of two would be. -/
theorem magnitude_infinityWord : magnitude infinityWord = limit := by
  have he : wordExponent infinityWord = 972 := by decide
  have hm : wordSignificand infinityWord = 2 ^ 52 := by decide
  unfold magnitude limit
  rw [he, hm, show (1024 : ℤ) = 972 + (52 : ℕ) by norm_num, zpow_two_add]
  push_cast
  ring

/-- The value of a significand with its leading bit, or with the lowest exponent. -/
theorem magnitude_eq {m : ℕ} {e : ℤ} (hm : m < 2 ^ 53) (hlo : -1074 ≤ e)
    (hnormal : 2 ^ 52 ≤ m ∨ e = -1074) :
    magnitude ((e + 1074).toNat * 2 ^ 52 + m) = m * (2 : ℝ) ^ e := by
  obtain ⟨k, hk⟩ : ∃ k : ℕ, e = k - 1074 := ⟨(e + 1074).toNat, by omega⟩
  have hexp : wordExponent (k * 2 ^ 52 + m) = e := by unfold wordExponent; omega
  have hsig : wordSignificand (k * 2 ^ 52 + m) = m := by
    unfold wordSignificand
    split_ifs <;> omega
  rw [show (e + 1074).toNat = k by omega, magnitude, hexp, hsig]

/-- **No representable number lies between two words.** -/
theorem exists_magnitude {x : ℝ} (h : Representable x) (h0 : 0 ≤ x) : ∃ w, x = magnitude w := by
  obtain ⟨m, hm⟩ := h
  have hlo := le_unitExponent x
  have hlt := abs_lt_zpow x
  have hnormal := zpow_le_abs_of_normal (x := x)
  generalize unitExponent x = e at hm hlo hlt hnormal
  have hpos := zpow_two_pos e
  have hpow53 : (2 : ℝ) ^ (e + 53) = 2 ^ 53 * (2 : ℝ) ^ e := by exact_mod_cast zpow_two_add e 53
  have hpow52 : (2 : ℝ) ^ (e + 52) = 2 ^ 52 * (2 : ℝ) ^ e := by exact_mod_cast zpow_two_add e 52
  rw [abs_of_nonneg h0, hm, hpow53] at hlt
  rw [abs_of_nonneg h0, hm, hpow52] at hnormal
  have hm0 : 0 ≤ m := by
    by_contra hneg
    have : (m : ℝ) ≤ -1 := by exact_mod_cast (by omega : m ≤ -1)
    nlinarith
  obtain ⟨k, rfl⟩ := Int.eq_ofNat_of_zero_le hm0
  rw [Int.cast_natCast] at hm hlt hnormal
  have hk : k < 2 ^ 53 := by exact_mod_cast lt_of_mul_lt_mul_right hlt hpos.le
  have hk' : 2 ^ 52 ≤ k ∨ e = -1074 := by
    by_cases he : e = -1074
    · exact .inr he
    · exact .inl (by exact_mod_cast le_of_mul_le_mul_right (hnormal he) hpos)
  exact ⟨_, hm.trans (magnitude_eq hk hlo hk').symm⟩

/-- The value of a word is representable. -/
theorem representable_magnitude (w : ℕ) : Representable (magnitude w) := by
  have hm : wordSignificand w ≤ 2 ^ 53 := by
    unfold wordSignificand
    split_ifs <;> omega
  refine representable_of_onGrid (by unfold wordExponent; omega) (OnGrid.intMul _ _) ?_
  rw [magnitude, abs_of_nonneg (mul_nonneg (Nat.cast_nonneg _) (zpow_two_pos _).le),
    show (53 : ℤ) = (53 : ℕ) by norm_num, zpow_two_add]
  exact mul_le_mul_of_nonneg_right (by exact_mod_cast hm) (zpow_two_pos _).le

end CertifiedZeros.Binary64
