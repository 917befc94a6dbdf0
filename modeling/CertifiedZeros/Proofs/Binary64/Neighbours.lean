import CertifiedZeros.Binary64.Neighbours
import CertifiedZeros.Proofs.Binary64.Operations

/-! # Neighbouring floats are neighbouring values

`nextUp` and `nextDown` move by one word, and words count with their values. So the value of
`nextUp x` is above that of `x`, and no representable number lies between them:

* **`lt_nextUp`**, **`nextDown_lt`** — a neighbour lies strictly beyond.
* **`nextUp_le_of_lt`**, **`le_nextDown_of_value_lt`** — and nothing lies between.
* **`le_nextUp_of_rounded`**, **`nextDown_le_of_rounded`** — therefore a number that is rounded to a
  finite float lies between the neighbours of that float. -/

namespace CertifiedZeros.Binary64

open Float.Model (UnpackedFloat)
open Float.Model.Format (binary64)
open Float.Model.UnpackedFloat

variable {x y : Float}

/-! ## Words -/

/-- **A float made from a word** has the sign and the count of that word. -/
theorem unpack_ofBits {u : UInt64} {s : Sign} {w : ℕ} (hw : w < 2 ^ 63)
    (hu : u.toNat = signBit s * 2 ^ 63 + w) : (Float.ofBits u).toModel.unpack = ofWord s w := by
  have hsign := signBit_lt s
  have hword : unpack binary64 u.toBitVec = ofWord s w := by
    rw [unpack_eq_ofWord, ofBitVec_eq (s := s), UInt64.toNat_toBitVec, hu]
    · congr 1
      omega
    · rw [toNat_unpackSign, UInt64.toNat_toBitVec, hu]
      omega
  change unpack binary64 (UnpackedFloat.pack binary64 (unpack binary64 u.toBitVec)) = _
  rw [hword]
  rcases Nat.lt_or_ge infinityWord w with h | h
  · rw [ofWord, if_pos h]
    rfl
  · rw [unpack_pack_ofWord s h]

/-- **The word of a number** is its count, with the sign bit on top. -/
theorem IsNumber.exists_toBits (h : IsNumber x) :
    ∃ s w, w ≤ infinityWord ∧ x.toModel.unpack = ofWord s w ∧
      x.toBits.toNat = signBit s * 2 ^ 63 + w := by
  have hlt := x.toBits.toNat_lt
  obtain ⟨s, hs⟩ : ∃ s, signBit s = x.toBits.toNat / 2 ^ 63 := by
    rcases Nat.lt_or_ge x.toBits.toNat (2 ^ 63) with hpos | hneg
    · exact ⟨.positive, by rw [Nat.div_eq_of_lt hpos]; rfl⟩
    · exact ⟨.negative, by change 1 = _; omega⟩
  have hunpack : x.toModel.unpack = ofWord s (x.toBits.toNat % 2 ^ 63) := by
    change unpack binary64 x.toBits.toBitVec = _
    rw [unpack_eq_ofWord, ofBitVec_eq (s := s), UInt64.toNat_toBitVec]
    rw [toNat_unpackSign, UInt64.toNat_toBitVec, hs]
  refine ⟨s, _, ?_, hunpack, by omega⟩
  by_contra hw
  have hnan : x.isNaN = true := by
    change x.toModel.unpack.isNaN = true
    rw [hunpack, ofWord, if_pos (not_le.mp hw)]
    rfl
  exact Bool.noConfusion (h.symm.trans hnan)

theorem value_of_word {s : Sign} {w : ℕ} (hw : w ≤ infinityWord)
    (hx : x.toModel.unpack = ofWord s w) :
    IsNumber x ∧ value x = clamp (placeValue (position s w)) := by
  rw [value, hx, unpackedValue_ofWord s hw, placeValue_position]
  refine ⟨?_, rfl⟩
  change x.toModel.unpack.isNaN = false
  rw [hx, ofWord, if_neg hw.not_gt]
  split_ifs <;> rfl

/-- **The real number of positive bits** below those of infinity. -/
theorem real_ofBits {u : UInt64} (hu : u.toNat < infinityWord) :
    (Float.ofBits u).isFinite = true ∧ real (Float.ofBits u) = magnitude u.toNat := by
  have hsmall : u.toNat < 2 ^ 63 := hu.trans (by decide)
  have hunpack : (Float.ofBits u).toModel.unpack = ofWord .positive u.toNat :=
    unpack_ofBits hsmall (Nat.zero_add _).symm
  have hval := value_eq_of_word hu hunpack
  rw [signFactor, one_mul] at hval
  exact ⟨isFinite_of_value (value_of_word hu.le hunpack).1 hval, real_eq_of_value hval⟩

/-! ## Constants -/

theorem zero_isNumber : IsNumber (0 : Float) := by decide

theorem value_zero : value (0 : Float) = 0 := by
  have h : (0 : Float).toModel.unpack = .zero .positive := rfl
  rw [value, h]
  rfl

theorem infinity_isNumber : IsNumber infinity := by decide

theorem value_infinity : value infinity = ⊤ := by
  have h := unpack_ofBits (u := 0x7FF0000000000000) (s := .positive) (w := infinityWord)
    (by decide) (by decide)
  rw [value, infinity, h, ofWord, if_neg (lt_irrefl _), if_pos rfl, unpackedValue]

/-! ## One word on -/

theorem placeValue_zero : placeValue 0 = 0 := by simp [placeValue]

theorem placeValue_infinityWord : placeValue infinityWord = limit := by
  rw [placeValue, if_pos (Int.natCast_nonneg _), Int.toNat_natCast, magnitude_infinityWord]

theorem placeValue_neg (n : ℤ) : placeValue (-n) = -placeValue n := by
  unfold placeValue
  rcases lt_trichotomy n 0 with h | rfl | h
  · rw [if_pos (by omega), if_neg (by omega), neg_neg]
  · simp
  · rw [if_neg (by omega), if_pos (by omega), neg_neg]

/-- Places up to infinity are in the order of their values. -/
theorem clamp_placeValue_lt_iff {n k : ℤ} (hn : |n| ≤ infinityWord) (hk : |k| ≤ infinityWord) :
    clamp (placeValue n) < clamp (placeValue k) ↔ n < k := by
  have hbound : ∀ {j : ℤ}, |j| ≤ infinityWord → |placeValue j| ≤ limit := by
    intro j hj
    obtain ⟨hlo, hhi⟩ := abs_le.mp hj
    rw [abs_le, ← placeValue_infinityWord, ← placeValue_neg]
    exact ⟨placeValue_strictMono.monotone hlo, placeValue_strictMono.monotone hhi⟩
  rw [clamp_lt_iff (hbound hn) (hbound hk), placeValue_strictMono.lt_iff_lt]

theorem clamp_placeValue_inj {n k : ℤ} (hn : |n| ≤ infinityWord) (hk : |k| ≤ infinityWord) :
    clamp (placeValue n) = clamp (placeValue k) ↔ n = k := by
  rw [le_antisymm_iff, ← not_lt, ← not_lt, clamp_placeValue_lt_iff hn hk,
    clamp_placeValue_lt_iff hk hn]
  omega

/-- **The next float is one place on**, up to infinity. -/
theorem nextUp_spec (hx : IsNumber x) :
    ∃ n : ℤ, |n| ≤ infinityWord ∧ value x = clamp (placeValue n) ∧ IsNumber (nextUp x) ∧
      value (nextUp x) = clamp (placeValue (min (n + 1) infinityWord)) := by
  obtain ⟨s, w, hw, hunpack, hbits⟩ := hx.exists_toBits
  obtain ⟨-, hval⟩ := value_of_word hw hunpack
  have hw' : w ≤ 2047 * 2 ^ 52 := hw
  have hn : |position s w| ≤ infinityWord := by
    cases s <;> simpa [position] using hw
  have htop : clamp (placeValue (infinityWord : ℤ)) = ⊤ := by
    rw [placeValue_infinityWord, clamp_of_le le_rfl]
  have hzero : clamp (placeValue 0) = 0 := by
    rw [placeValue_zero, clamp_of_lt (by rw [abs_zero]; exact limit_pos)]
    rfl
  have hinf : |(infinityWord : ℤ)| ≤ infinityWord := by simp
  have h0 : |(0 : ℤ)| ≤ infinityWord := by simp
  have hone : ∀ {u : UInt64} {t : Sign} {v : ℕ}, v ≤ infinityWord →
      u.toNat = signBit t * 2 ^ 63 + v → position t v = min (position s w + 1) infinityWord →
      IsNumber (.ofBits u) ∧
        value (.ofBits u) = clamp (placeValue (min (position s w + 1) infinityWord)) := by
    intro u t v hv hu hpos
    have h := value_of_word hv (unpack_ofBits (lt_of_le_of_lt hv (by decide)) hu)
    rwa [hpos] at h
  refine ⟨position s w, hn, hval, ?_⟩
  have hnan : x.isNaN = false := hx
  rw [nextUp, hnan, Bool.false_or]
  split_ifs with h₁ h₂ h₃
  · -- infinity is the last place
    have hvx := (beq_iff.mp h₁).2.2
    rw [value_infinity, ← htop, hval, clamp_placeValue_inj hn hinf] at hvx
    refine ⟨hx, ?_⟩
    rw [hval, hvx, min_eq_right (by omega)]
  · have hvx := (beq_iff.mp h₂).2.2
    rw [value_zero, ← hzero, hval, clamp_placeValue_inj hn h0] at hvx
    refine hone (t := .positive) (v := 1) (by decide) (by decide) ?_
    rw [hvx]
    decide
  · have hvx := (lt_iff.mp h₃).2.2
    rw [value_zero, ← hzero, hval, clamp_placeValue_lt_iff h0 hn] at hvx
    have hne : ¬position s w = infinityWord := fun h => h₁ (beq_iff.mpr
      ⟨hx, infinity_isNumber, by rw [value_infinity, ← htop, hval, h]⟩)
    cases s
    · simp only [position] at hvx
      omega
    · simp only [position] at hvx hne hone ⊢
      have hlt : w < infinityWord := by omega
      refine hone (t := .positive) (v := w + 1) hlt ?_ ?_
      · rw [UInt64.toNat_add, hbits, signBit_positive, show (1 : UInt64).toNat = 1 from rfl]
        omega
      · change ((w + 1 : ℕ) : ℤ) = min ((w : ℤ) + 1) infinityWord
        omega
  · have hvx : position s w < 0 := by
      by_contra hge
      rcases (not_lt.mp hge).eq_or_lt with heq | hgt
      · exact h₂ (beq_iff.mpr ⟨hx, zero_isNumber, by rw [value_zero, ← hzero, hval, ← heq]⟩)
      · refine h₃ (lt_iff.mpr ⟨zero_isNumber, hx, ?_⟩)
        rw [value_zero, ← hzero, hval, clamp_placeValue_lt_iff h0 hn]
        exact hgt
    cases s
    · simp only [position] at hvx hone ⊢
      refine hone (t := .negative) (v := w - 1) (by omega) ?_ ?_
      · have hle : (1 : UInt64) ≤ x.toBits := by
          rw [UInt64.le_iff_toNat_le, hbits, signBit_negative,
            show (1 : UInt64).toNat = 1 from rfl]
          omega
        rw [UInt64.toNat_sub_of_le _ _ hle, hbits, signBit_negative,
          show (1 : UInt64).toNat = 1 from rfl]
        omega
      · change -((w - 1 : ℕ) : ℤ) = min (-(w : ℤ) + 1) infinityWord
        omega
    · simp only [position] at hvx
      omega

/-! ## Neighbours -/

theorem isNumber_nextUp (hx : IsNumber x) : IsNumber (nextUp x) := by
  obtain ⟨n, -, -, h, -⟩ := nextUp_spec hx
  exact h

/-- **The next float lies above**, unless there is none. -/
theorem lt_nextUp (hx : IsNumber x) (htop : value x ≠ ⊤) : value x < value (nextUp x) := by
  obtain ⟨n, hn, hval, -, hnext⟩ := nextUp_spec hx
  have hlt : n < infinityWord := by
    obtain ⟨-, hhi⟩ := abs_le.mp hn
    refine lt_of_le_of_ne hhi fun h => htop ?_
    rw [hval, h, placeValue_infinityWord, clamp_of_le le_rfl]
  obtain ⟨hlo, -⟩ := abs_le.mp hn
  rw [hval, hnext, clamp_placeValue_lt_iff hn (abs_le.mpr (by omega))]
  omega

theorem le_nextUp (hx : IsNumber x) : value x ≤ value (nextUp x) := by
  by_cases htop : value x = ⊤
  · obtain ⟨n, hn, hval, -, hnext⟩ := nextUp_spec hx
    rw [hval, hnext]
    refine clamp_mono (placeValue_strictMono.monotone ?_)
    obtain ⟨-, hhi⟩ := abs_le.mp hn
    omega
  · exact (lt_nextUp hx htop).le

/-- The representable numbers are the values of places. -/
theorem exists_placeValue {g : ℝ} (hg : Representable g) : ∃ k : ℤ, g = placeValue k := by
  rcases le_total 0 g with h | h
  · obtain ⟨w, hw⟩ := exists_magnitude hg h
    exact ⟨w, by rw [hw, placeValue, if_pos (Int.natCast_nonneg w), Int.toNat_natCast]⟩
  · obtain ⟨w, hw⟩ := exists_magnitude hg.neg (neg_nonneg.mpr h)
    refine ⟨-w, ?_⟩
    rw [placeValue_neg, placeValue, if_pos (Int.natCast_nonneg w), Int.toNat_natCast, ← hw, neg_neg]

/-- **Nothing representable lies between a float and the next one.** -/
theorem nextUp_le_of_lt {g : ℝ} (hx : IsNumber x) (hg : Representable g) (h : value x < clamp g) :
    value (nextUp x) ≤ clamp g := by
  obtain ⟨n, hn, hval, -, hnext⟩ := nextUp_spec hx
  obtain ⟨k, rfl⟩ := exists_placeValue hg
  rw [hval] at h
  have hnk : n < k := not_le.mp fun hle =>
    absurd (clamp_mono (placeValue_strictMono.monotone hle)) (not_le.mpr h)
  rw [hnext]
  exact clamp_mono (placeValue_strictMono.monotone (by omega))

/-- The next float is no more than any float above. -/
theorem nextUp_le_of_value_lt (hx : IsNumber x) (hy : IsNumber y) (h : value x < value y) :
    value (nextUp x) ≤ value y := by
  rcases hy.cases with hfin | ⟨-, htop | hbot⟩
  · rw [← clamp_rounded_real hfin] at h ⊢
    exact nextUp_le_of_lt hx (representable_rounded _) h
  · rw [htop]
    exact le_top
  · rw [hbot] at h
    exact absurd h not_lt_bot

/-- **A number that is rounded to a float lies below the next one.** -/
theorem le_nextUp_of_rounded {r : ℝ} (hx : IsNumber x) (htop : value x ≠ ⊤)
    (h : value x = clamp (rounded r)) : (r : EReal) ≤ value (nextUp x) := by
  by_contra hlt
  have hge := value_le_clamp_rounded (isNumber_nextUp hx) (not_le.mp hlt).le
  exact absurd (lt_nextUp hx htop) (not_lt.mpr (h ▸ hge))

theorem isNumber_neg (hx : IsNumber x) : IsNumber (-x) := (neg_spec hx).1

theorem value_neg (hx : IsNumber x) : value (-x) = -value x := (neg_spec hx).2

theorem isNumber_nextDown (hx : IsNumber x) : IsNumber (nextDown x) :=
  isNumber_neg (isNumber_nextUp (isNumber_neg hx))

theorem value_nextDown (hx : IsNumber x) : value (nextDown x) = -value (nextUp (-x)) :=
  value_neg (isNumber_nextUp (isNumber_neg hx))

/-- **The previous float lies below**, unless there is none. -/
theorem nextDown_lt (hx : IsNumber x) (hbot : value x ≠ ⊥) : value (nextDown x) < value x := by
  have h := lt_nextUp (isNumber_neg hx) (by rw [value_neg hx]; simpa using hbot)
  rw [value_nextDown hx, EReal.neg_lt_comm, ← value_neg hx]
  exact h

theorem nextDown_le (hx : IsNumber x) : value (nextDown x) ≤ value x := by
  have h := le_nextUp (isNumber_neg hx)
  rw [value_nextDown hx, EReal.neg_le, ← value_neg hx]
  exact h

/-- The previous float is no less than any float below. -/
theorem le_nextDown_of_value_lt (hx : IsNumber x) (hy : IsNumber y) (h : value y < value x) :
    value y ≤ value (nextDown x) := by
  have h' := nextUp_le_of_value_lt (isNumber_neg hx) (isNumber_neg hy)
    (by rw [value_neg hx, value_neg hy]; exact EReal.neg_lt_neg_iff.mpr h)
  rw [value_nextDown hx, EReal.le_neg, ← value_neg hy]
  exact h'

/-- **A number that is rounded to a float lies above the previous one.** -/
theorem nextDown_le_of_rounded {r : ℝ} (hx : IsNumber x) (hbot : value x ≠ ⊥)
    (h : value x = clamp (rounded r)) : value (nextDown x) ≤ (r : EReal) := by
  have h' := le_nextUp_of_rounded (r := -r) (isNumber_neg hx)
    (by rw [value_neg hx]; simpa using hbot) (by rw [value_neg hx, h, rounded_neg, clamp_neg])
  rw [value_nextDown hx, EReal.neg_le, ← EReal.coe_neg]
  exact h'

end CertifiedZeros.Binary64
