import CertifiedZeros.Proofs.Binary64.Rounding

/-! # Rounding errors that are representable

The rounding error of a sum is itself a number of the format, and a few more roundings compute it:
with `s = rounded (a + b)` and `b' = rounded (s - a)`, the two differences `a - (s - b')` and
`b - b'` are both exact and add up to the error. Three cases carry the proof:

* **`representable_rounded_sub`** — the larger operand comes first: `s - a` is exact.
* **`rounded_add_eq_of_lt`** — the operands cancel: the sum is exact.
* **`representable_sub_virtual`** — the smaller operand comes first: `b - b'` is a small multiple of
  a unit near the last place of `b`.

The exponents have no upper bound here; **`abs_twoSum_lt`** has the estimates that exclude an
overflow on the way. -/

namespace CertifiedZeros.Binary64

variable {a b : ℝ}

/-! ## The error of a sum -/

/-- The error of a sum is at most the second operand, because the first one is a candidate. -/
theorem abs_add_sub_rounded_le (ha : Representable a) : |a + b - rounded (a + b)| ≤ |b| := by
  have h := abs_sub_rounded_le_of_representable (x := a + b) ha
  rwa [add_sub_cancel_left] at h

/-- The error of a sum is a multiple of the smaller last place. -/
theorem onGrid_add_sub_rounded {e : ℤ} (he : -1074 ≤ e) (ha : OnGrid e a) (hb : OnGrid e b) :
    OnGrid e (a + b - rounded (a + b)) :=
  (ha.add hb).sub (OnGrid.rounded he (ha.add hb))

/-- **The error of a sum is representable.** -/
theorem representable_add_error (ha : Representable a) (hb : Representable b) :
    Representable (a + b - rounded (a + b)) := by
  rcases le_total (unitExponent a) (unitExponent b) with h | h
  · refine representable_of_onGrid (le_unitExponent a)
      (onGrid_add_sub_rounded (le_unitExponent a) ha (hb.onGrid h)) ?_
    have herr := abs_add_sub_rounded_le (b := a) hb
    rw [add_comm b a] at herr
    exact herr.trans (abs_lt_zpow a).le
  · refine representable_of_onGrid (le_unitExponent b)
      (onGrid_add_sub_rounded (le_unitExponent b) (ha.onGrid h) hb) ?_
    exact (abs_add_sub_rounded_le ha).trans (abs_lt_zpow b).le

/-- The last place of a sum is at most one above that of the larger operand. -/
theorem unitExponent_add_le (h : |a| ≤ |b|) : unitExponent (a + b) ≤ unitExponent b + 1 := by
  have hlo := le_unitExponent b
  refine unitExponent_le (by omega) ?_
  have hb := abs_lt_zpow b
  have hpow : (2 : ℝ) ^ (unitExponent b + 1 + 53) = 2 * (2 : ℝ) ^ (unitExponent b + 53) := by
    rw [show unitExponent b + 1 + 53 = unitExponent b + 53 + (1 : ℕ) by push_cast; ring,
      zpow_two_add]
    ring
  rw [hpow]
  linarith [abs_add_le a b]

/-- A sum whose last place is no higher than those of the operands is exact. -/
theorem rounded_add_eq_of_le {e : ℤ} (ha : OnGrid e a) (hb : OnGrid e b)
    (he : unitExponent (a + b) ≤ e) : rounded (a + b) = a + b :=
  rounded_eq ((ha.add hb).mono he)

/-! ## The larger operand first -/

/-- **The part of the sum that the smaller operand contributed** is representable. -/
theorem representable_rounded_sub (ha : Representable a) (hb : Representable b) (h : |b| ≤ |a|) :
    Representable (rounded (a + b) - a) := by
  have hab : unitExponent b ≤ unitExponent a := unitExponent_mono h
  rcases le_or_gt (unitExponent (a + b)) (unitExponent b) with hexact | hlt
  · rw [rounded_add_eq_of_le (ha.onGrid hab) hb hexact, add_sub_cancel_left]
    exact hb
  have herr := abs_sub_rounded_le (a + b)
  have hsplit : |rounded (a + b) - a| ≤ |b| + |a + b - rounded (a + b)| := by
    rw [show rounded (a + b) - a = b - (a + b - rounded (a + b)) by ring]
    exact abs_sub _ _
  have hgrid := onGrid_rounded (a + b)
  rcases le_or_gt (unitExponent (a + b)) (unitExponent a) with hsame | hup
  · refine representable_of_onGrid (le_unitExponent (a + b)) (hgrid.sub (ha.onGrid hsame)) ?_
    have hpow : (2 : ℝ) ^ (unitExponent (a + b) + 53)
        = 2 ^ 53 * (2 : ℝ) ^ unitExponent (a + b) := by
      exact_mod_cast zpow_two_add (unitExponent (a + b)) 53
    have hbsmall : |b| ≤ 2 ^ 52 * (2 : ℝ) ^ unitExponent (a + b) := by
      rw [← zpow_two_add]
      exact (abs_lt_zpow b).le.trans (zpow_two_le (by push_cast; omega))
    rw [hpow]
    linarith [zpow_two_pos (unitExponent (a + b))]
  · have hone : unitExponent (a + b) = unitExponent a + (1 : ℕ) := by
      have := unitExponent_add_le h
      rw [add_comm] at this
      push_cast
      omega
    refine representable_of_onGrid (le_unitExponent a) ((hgrid.mono (by omega)).sub ha) ?_
    have hbound := ha.abs_le
    rw [hone, zpow_two_add] at herr
    linarith

/-! ## The smaller operand first -/

/-- **Operands that cancel have an exact sum.** -/
theorem rounded_add_eq_of_lt (ha : Representable a) (hb : Representable b) (h : |a| ≤ |b|)
    (hlt : |rounded (a + b)| < |a|) : rounded (a + b) = a + b := by
  have hsmall : |a + b| < |a| := by
    rw [abs_rounded] at hlt
    refine lt_of_rounded_lt ?_ hlt
    rcases abs_choice a with h | h <;> rw [h]
    · exact ha
    · exact ha.neg
  exact rounded_add_eq_of_le ha (hb.onGrid (unitExponent_mono h)) (unitExponent_mono hsmall.le)

/-- What is taken for the second operand differs from it by at most twice the error. -/
theorem abs_sub_virtual_le (hb : Representable b) :
    |b - rounded (rounded (a + b) - a)| ≤ 2 * |a + b - rounded (a + b)| := by
  have hnear := abs_sub_rounded_le_of_representable (x := rounded (a + b) - a) hb
  rw [show rounded (a + b) - a - b = -(a + b - rounded (a + b)) by ring, abs_neg] at hnear
  have htri := abs_sub_le b (rounded (a + b) - a) (rounded (rounded (a + b) - a))
  rw [show b - (rounded (a + b) - a) = a + b - rounded (a + b) by ring] at htri
  linarith

/-- **What is missing from the second operand is representable.** It is at most two units in the
last place of `b`, and a multiple of half a unit. -/
theorem representable_sub_virtual (hb : Representable b) (h : |a| ≤ |b|) :
    Representable (b - rounded (rounded (a + b) - a)) := by
  have hlo := le_unitExponent b
  have hpow1 : (2 : ℝ) ^ (unitExponent b + 1) = 2 * (2 : ℝ) ^ unitExponent b := by
    exact_mod_cast (zpow_two_add (unitExponent b) 1).trans (by rw [pow_one])
  have hsize : |b - rounded (rounded (a + b) - a)| ≤ 2 * (2 : ℝ) ^ unitExponent b := by
    have herr := abs_sub_rounded_le (a + b)
    have hle := zpow_two_le (unitExponent_add_le h)
    have hvirtual := abs_sub_virtual_le (a := a) hb
    rw [hpow1] at hle
    linarith
  have hrep := representable_rounded (rounded (a + b) - a)
  by_cases hsub : unitExponent b = -1074
  · refine representable_of_onGrid le_rfl (hb.onGrid_least.sub hrep.onGrid_least) ?_
    rw [hsub] at hsize hpow1
    rw [← hpow1] at hsize
    exact hsize.trans (zpow_two_le (by norm_num))
  · have hnormal := zpow_le_abs_of_normal hsub
    have hlarge : (2 : ℝ) ^ (unitExponent b - 1 + 52) ≤ |rounded (rounded (a + b) - a)| := by
      have h52 : (2 : ℝ) ^ (unitExponent b + 52) = 2 ^ 52 * (2 : ℝ) ^ unitExponent b := by
        exact_mod_cast zpow_two_add (unitExponent b) 52
      have h51 : (2 : ℝ) ^ (unitExponent b - 1 + 52) = 2 ^ 51 * (2 : ℝ) ^ unitExponent b := by
        rw [show unitExponent b - 1 + 52 = unitExponent b + (51 : ℕ) by push_cast; ring]
        exact zpow_two_add (unitExponent b) 51
      have htri := abs_sub_abs_le_abs_sub b (rounded (rounded (a + b) - a))
      rw [h52] at hnormal
      rw [h51]
      linarith [zpow_two_pos (unitExponent b)]
    refine representable_of_onGrid (e := unitExponent b - 1) (by omega)
      ((hb.onGrid (by omega)).sub (hrep.onGrid (le_unitExponent_of_le hlarge))) ?_
    rw [← hpow1] at hsize
    exact hsize.trans (zpow_two_le (by omega))

/-! ## Both parts -/

/-- What is taken for the first operand differs from it by at most the error. -/
theorem abs_virtual_sub_le (hb : Representable b) :
    |a - (rounded (a + b) - rounded (rounded (a + b) - a))| ≤ |a + b - rounded (a + b)| := by
  have hnear := abs_sub_rounded_le_of_representable (x := rounded (a + b) - a) hb
  rw [show rounded (a + b) - a - b = -(a + b - rounded (a + b)) by ring, abs_neg] at hnear
  rw [show a - (rounded (a + b) - rounded (rounded (a + b) - a))
    = -(rounded (a + b) - a - rounded (rounded (a + b) - a)) by ring, abs_neg]
  exact hnear

/-- **The differences that make up the rounding error of a sum are exact**, in either order of the
operands. -/
theorem representable_twoSum (ha : Representable a) (hb : Representable b) :
    Representable (rounded (a + b) - rounded (rounded (a + b) - a)) ∧
      Representable (a - (rounded (a + b) - rounded (rounded (a + b) - a))) ∧
      Representable (b - rounded (rounded (a + b) - a)) := by
  have hs := representable_rounded (a + b)
  rcases le_or_gt |b| |a| with hle | hlt
  · have hexact := rounded_eq (representable_rounded_sub ha hb hle)
    rw [hexact]
    refine ⟨?_, ?_, ?_⟩
    · rwa [sub_sub_cancel]
    · rw [sub_sub_cancel, sub_self]
      exact representable_zero
    · rw [show b - (rounded (a + b) - a) = a + b - rounded (a + b) by ring]
      exact representable_add_error ha hb
  · refine ⟨?_, ?_, representable_sub_virtual hb hlt.le⟩
    · rcases le_or_gt |a| |rounded (a + b)| with hsum | hsum
      · -- `s - a` is itself a sum with the larger operand first
        have hfast := representable_rounded_sub hs ha.neg (by rwa [abs_neg])
        rw [← sub_eq_add_neg] at hfast
        rw [← neg_sub]
        exact hfast.neg
      · rw [rounded_add_eq_of_lt ha hb hlt.le hsum, add_sub_cancel_left, rounded_eq hb,
          add_sub_cancel_right]
        exact ha
    · have herr := representable_add_error hs ha.neg
      rw [← sub_eq_add_neg] at herr
      rw [show a - (rounded (a + b) - rounded (rounded (a + b) - a))
        = -(rounded (a + b) - a - rounded (rounded (a + b) - a)) by ring]
      exact herr.neg

/-! ## No overflow on the way -/

/-- **The estimates for every step**: when the rounded sum is finite, so is each difference. -/
theorem abs_twoSum_lt (ha : Representable a) (hb : Representable b) (hal : |a| < limit)
    (hsl : |rounded (a + b)| < limit) :
    |rounded (a + b) - rounded (rounded (a + b) - a)| < limit ∧
      |a - (rounded (a + b) - rounded (rounded (a + b) - a))| < limit ∧
      |b - rounded (rounded (a + b) - a)| < limit ∧ |a + b - rounded (a + b)| < limit := by
  have hpos := topUnit_pos
  have hlimit := limit_eq
  have herr := abs_sub_rounded_le_topUnit hsl
  have hfirst := abs_virtual_sub_le (a := a) hb
  have hsecond := abs_sub_virtual_le (a := a) hb
  have hamax := ha.abs_le_of_lt_limit hal
  refine ⟨?_, ?_, ?_, ?_⟩
  · have htri := abs_sub a (a - (rounded (a + b) - rounded (rounded (a + b) - a)))
    rw [sub_sub_cancel] at htri
    linarith
  all_goals linarith

/-! ## Products -/

/-- **The error of a product that is not too small is a multiple of a unit of the format**, so that
it does not vanish when it is rounded in turn. -/
theorem exists_onGrid_mul_error (ha : Representable a) (hb : Representable b)
    (h : (2 : ℝ) ^ (-965 : ℤ) ≤ |a * b|) :
    ∃ e : ℤ, -1074 ≤ e ∧ OnGrid e (a * b - rounded (a * b)) := by
  have hgrid : OnGrid (unitExponent a + unitExponent b) (a * b) := OnGrid.mul ha hb
  have hlo : -1074 ≤ unitExponent a + unitExponent b := by
    have hlt : |a * b| < (2 : ℝ) ^ (unitExponent a + 53 + (unitExponent b + 53)) := by
      rw [abs_mul, zpow_add₀ (by norm_num) (unitExponent a + 53)]
      exact mul_lt_mul'' (abs_lt_zpow a) (abs_lt_zpow b) (abs_nonneg a) (abs_nonneg b)
    have := (zpow_lt_zpow_iff_right₀ (by norm_num : (1 : ℝ) < 2)).mp (h.trans_lt hlt)
    omega
  exact ⟨_, hlo, hgrid.sub (OnGrid.rounded hlo hgrid)⟩

end CertifiedZeros.Binary64
