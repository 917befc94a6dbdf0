import CertifiedZeros.Proofs.Binary64.RelativeError
import CertifiedZeros.Proofs.Interval.Reflection
import CertifiedZeros.Proofs.Interval.Weights

/-! # Monotone endpoints

A larger exact result has larger endpoints, up to two exceptions. A sum may lose its rounding error,
and a product that is exactly zero is a point, while the tiniest other product is widened to both
sides:

* **`le_ofSum_lo`**, **`ofSum_hi_le`** — no float lies between the exact sum and an end of its
  interval. Here a lost error does no harm: the end then stays at the rounded sum.
* **`ofSum_hi_le_iff`**, **`ofSum_hi_neg_iff`** — the upper end of a sum that keeps its error, exactly.
* **`ofProduct_lo_mono`**, **`ofProduct_hi_mono`** — the ends of products, where a zero lies on the
  outer side only beside another zero. -/

namespace CertifiedZeros.Interval

open Binary64

variable {a b c d g : Float}

/-! ## Sums -/

/-- **The lower end of a sum** stays above every float that is not above the exact sum. -/
theorem le_ofSum_lo (h : IsNumber (a + b)) (hg : IsNumber g) (hle : value g ≤ value a + value b) :
    value g ≤ value (ofSum a b).lo := by
  by_cases hfin : a.isFinite = true ∧ b.isFinite = true
  · obtain ⟨ha, hb⟩ := hfin
    have hsum := (add_spec ha hb).2
    rw [← coe_real ha, ← coe_real hb, ← EReal.coe_add] at hle
    unfold ofSum
    rcases Bool.eq_false_or_eq_true (a + b).isFinite with hs | hs
    · simp only [hs, if_true]
      refine le_besides_lo_of_le hs hsum hg hle fun herr => ?_
      -- an error with a sign has been computed exactly
      have hv : (a + b - a).isFinite = true := by
        by_contra hv
        exact sumError_of_overflow ha hb hs ((Bool.not_eq_true _).mp hv) (lt_iff.mp herr).1
      obtain ⟨hef, her⟩ := sumError_spec ha hb hs hv
      rw [neg_iff hef, her] at herr
      linarith
    · simp only [hs, ha, hb, Bool.false_eq_true, if_false, if_true, Bool.and_self]
      have hrounded := hsum ▸ value_le_clamp_rounded hg hle
      rcases hg.cases with hgfin | ⟨-, htop | hbot⟩
      · exact le_ofOverflow_lo h hgfin (eq_top_of_le h hs hgfin hrounded)
      · rw [htop] at hle
        exact absurd hle (not_le.mpr (EReal.coe_lt_top _))
      · rw [hbot]
        exact bot_le
  · rw [not_and_or, Bool.not_eq_true, Bool.not_eq_true] at hfin
    rw [ofSum_eq_point hfin]
    exact hle.trans (value_add_of_infinite h hfin).ge

/-- **The upper end of a sum** stays below every float that is not below the exact sum. -/
theorem ofSum_hi_le (h : IsNumber (a + b)) (hg : IsNumber g) (hle : value a + value b ≤ value g) :
    value (ofSum a b).hi ≤ value g := by
  obtain ⟨ha, hb⟩ := isNumber_of_add h
  have hopposed : ¬Opposed (value a) (value b) := (value_add ha hb).1.mp h
  have hneg : IsNumber (-a + -b) := by
    rw [(value_add (isNumber_neg ha) (isNumber_neg hb)).1, value_neg ha, value_neg hb]
    unfold Opposed at hopposed ⊢
    simpa only [EReal.neg_eq_top_iff, EReal.neg_eq_bot_iff, or_comm] using hopposed
  have hturned : Turned true (ofSum a b) (ofSum (-a) (-b)) :=
    turned_ofSum (Binary64.turned_neg a) (Binary64.turned_neg b)
  have hlower := le_ofSum_lo hneg (isNumber_neg hg) (by
    rw [value_neg hg, value_neg ha, value_neg hb, ← sub_eq_add_neg, ← EReal.neg_add]
    · exact EReal.neg_le_neg_iff.mpr hle
    · by_contra hc
      simp only [not_or, not_not] at hc
      exact hopposed (.inr hc)
    · by_contra hc
      simp only [not_or, not_not] at hc
      exact hopposed (.inl hc))
  have hvalue : value (ofSum (-a) (-b)).lo = -value (ofSum a b).hi := hturned.1.2
  rw [hvalue, value_neg hg] at hlower
  exact EReal.neg_le_neg_iff.mp hlower

/-- **The upper end of a sum that keeps its error** is the least float above the exact sum. -/
theorem ofSum_hi_le_iff (ha : IsNumber a) (hb : IsNumber b) (hat : value a ≠ ⊥) (hbt : value b ≠ ⊥)
    (hkept : sumBelow a b = false) (hg : IsNumber g) :
    value (ofSum a b).hi ≤ value g ↔ value a + value b ≤ value g := by
  constructor
  · intro h
    exact ((ofSum_hi_spec ha hb hat hbt).2.mpr hkept).trans h
  · exact ofSum_hi_le (isNumber_add ha hb (fun h => hbt h.2) fun h => hat h.1) hg

/-- **The upper end of a sum that keeps its error** is negative exactly when the sum is. -/
theorem ofSum_hi_neg_iff (ha : IsNumber a) (hb : IsNumber b) (hat : value a ≠ ⊥) (hbt : value b ≠ ⊥)
    (hkept : sumBelow a b = false) : (ofSum a b).hi < 0 ↔ value a + value b < 0 := by
  obtain ⟨hnum, hspec⟩ := ofSum_hi_spec ha hb hat hbt
  have hle := hspec.mpr hkept
  rw [lt_iff, value_zero]
  constructor
  · intro h
    exact hle.trans_lt h.2.2
  · intro hneg
    refine ⟨hnum, zero_isNumber, ?_⟩
    -- a negative sum has finite terms, and is at least one place below zero
    have hfin : a.isFinite = true ∧ b.isFinite = true := by
      rcases ha.cases with hafin | ⟨-, htop | hbot⟩
      · rcases hb.cases with hbfin | ⟨-, htop | hbot⟩
        · exact ⟨hafin, hbfin⟩
        · rw [htop, EReal.add_top_of_ne_bot hat] at hneg
          exact absurd hneg not_top_lt
        · exact absurd hbot hbt
      · rw [htop, EReal.top_add_of_ne_bot hbt] at hneg
        exact absurd hneg not_top_lt
      · exact absurd hbot hat
    obtain ⟨hafin, hbfin⟩ := hfin
    obtain ⟨c, hcfin, hc⟩ := exists_float (representable_zpow (show (-1074 : ℤ) ≤ -1074 by norm_num)).neg
      (by rw [abs_neg, abs_of_pos (zpow_two_pos _)]; exact zpow_two_lt (by norm_num))
    have hgrid := (representable_real hafin).onGrid_least.add (representable_real hbfin).onGrid_least
    rw [← coe_real hafin, ← coe_real hbfin, ← EReal.coe_add, EReal.coe_neg'] at hneg
    have hstep := hgrid.zpow_le_abs hneg.ne
    rw [abs_of_neg hneg] at hstep
    have hbelow : value (ofSum a b).hi ≤ value c := by
      refine ofSum_hi_le (add_spec hafin hbfin).1 (isNumber_of_isFinite hcfin) ?_
      rw [← coe_real hafin, ← coe_real hbfin, ← coe_real hcfin, ← EReal.coe_add,
        EReal.coe_le_coe_iff, hc]
      linarith
    refine hbelow.trans_lt ?_
    rw [← coe_real hcfin, hc, EReal.coe_neg']
    linarith [zpow_two_pos (-1074)]

/-! ## Products -/

/-- **The rounded product is not below the lower end**, and lies above it when the product is widened
for safety. -/
theorem ofProduct_lo_le_mul (ha : a.isFinite = true) (hb : b.isFinite = true) :
    value (ofProduct a b).lo ≤ value (a * b) ∧
      (real a * real b ≠ 0 → (a * b).abs < residualFloor →
        value (ofProduct a b).lo < value (a * b)) := by
  obtain ⟨hnum, hval⟩ := mul_spec ha hb
  unfold ofProduct
  by_cases h0 : (a == 0 || b == 0) = true
  · have hzero : real a * real b = 0 := by
      rw [Bool.or_eq_true, beq_zero_iff (isNumber_of_isFinite ha), ← coe_real ha,
        beq_zero_iff (isNumber_of_isFinite hb), ← coe_real hb, EReal.coe_eq_zero,
        EReal.coe_eq_zero] at h0
      exact mul_eq_zero.mpr h0
    rw [if_pos h0, hval, hzero, clamp_rounded_zero]
    exact ⟨value_zero.le, fun hne => absurd rfl hne⟩
  · rw [if_neg h0]
    rcases Bool.eq_false_or_eq_true (a * b).isFinite with hp | hp
    · simp only [hp, if_true]
      split_ifs with hfloor
      · have hlt := nextDown_lt hnum (by rw [← coe_real hp]; exact EReal.coe_ne_bot _)
        exact ⟨hlt.le, fun _ _ => hlt⟩
      · exact ⟨(besides_brackets hp).2.2.1, fun _ h => absurd h hfloor⟩
    · simp only [hp, ha, hb, Bool.false_eq_true, if_false, if_true, Bool.and_self]
      refine ⟨(ofOverflow_brackets_self hnum hp).2.2.1, fun _ hfloor => ?_⟩
      obtain ⟨-, hfin, hlt⟩ := lt_iff.mp hfloor
      rw [(abs_spec hnum).2] at hlt
      refine absurd (lt_of_lt_of_le hlt le_top) ?_
      rcases hnum.value_of_not_isFinite hp with h | h <;> simp [h]

/-- Only finite factors have a product with a finite lower end, unless it is zero. -/
theorem isFinite_of_ofProduct_lo (ha : IsNumber a) (hb : IsNumber b) (h0 : value a * value b ≠ 0)
    (h : (ofProduct a b).lo.isFinite = true) : a.isFinite = true ∧ b.isFinite = true := by
  by_contra hinf
  rw [not_and_or, Bool.not_eq_true, Bool.not_eq_true] at hinf
  rw [(ofProduct_of_infinite ha hb hinf (left_ne_zero_of_mul h0) (right_ne_zero_of_mul h0)).1] at h
  obtain ⟨hafin, hbfin⟩ := isFinite_of_mul h
  rcases hinf with h | h
  · exact Bool.noConfusion (hafin.symm.trans h)
  · exact Bool.noConfusion (hbfin.symm.trans h)

/-- **The lower end of a product grows with the product**, except from a zero to another number. -/
theorem ofProduct_lo_mono (ha : IsNumber a) (hb : IsNumber b) (hc : IsNumber c) (hd : IsNumber d)
    (hle : value a * value b ≤ value c * value d)
    (h0 : value a * value b = 0 → value c * value d = 0) :
    value (ofProduct a b).lo ≤ value (ofProduct c d).lo := by
  obtain ⟨hnum, -, hlo, -⟩ := ofProduct_brackets ha hb
  by_cases hzero : value c = 0 ∨ value d = 0
  · have hprod : value c * value d = 0 := by rcases hzero with h | h <;> simp [h]
    have hdef : ofProduct c d = 0 := by
      rw [ofProduct, if_pos]
      rwa [Bool.or_eq_true, beq_zero_iff hc, beq_zero_iff hd]
    rw [hdef]
    exact (hlo.trans (hle.trans_eq hprod)).trans value_zero.ge
  obtain ⟨hc0, hd0⟩ := not_or.mp hzero
  by_cases hfin : c.isFinite = true ∧ d.isFinite = true
  · obtain ⟨hcfin, hdfin⟩ := hfin
    rcases hnum.cases with hgfin | ⟨-, htop | hbot⟩
    · rw [← coe_real hcfin, ← coe_real hdfin, ← EReal.coe_mul] at hle
      refine le_ofProduct_lo hcfin hdfin hgfin ?_ fun hne hfloor => ?_
      · have hreal := hlo.trans hle
        rwa [← coe_real hgfin, EReal.coe_le_coe_iff] at hreal
      · -- the smaller product has finite factors other than zero, and is rounded to no more
        have hnonzero : value a * value b ≠ 0 := fun h => by
          rw [← coe_real hcfin, ← coe_real hdfin, ← EReal.coe_mul, EReal.coe_eq_zero] at h0
          exact hne (h0 h)
        obtain ⟨hafin, hbfin⟩ := isFinite_of_ofProduct_lo ha hb hnonzero hgfin
        obtain ⟨hweak, hstrict⟩ := ofProduct_lo_le_mul hafin hbfin
        rw [← coe_real hafin, ← coe_real hbfin, ← EReal.coe_mul] at hle hnonzero
        have hrounded : value (a * b) ≤ value (c * d) := by
          rw [(mul_spec hafin hbfin).2, (mul_spec hcfin hdfin).2]
          exact clamp_mono (rounded_mono (EReal.coe_le_coe_iff.mp hle))
        rcases hrounded.lt_or_eq with hlt | heq
        · exact hweak.trans_lt hlt
        · refine (hstrict (EReal.coe_ne_zero.mp hnonzero) ?_).trans_eq heq
          obtain ⟨hcd, hfl, hlt⟩ := lt_iff.mp hfloor
          refine lt_iff.mpr ⟨(abs_spec (mul_spec hafin hbfin).1).1, hfl, ?_⟩
          rwa [(abs_spec (mul_spec hafin hbfin).1).2, heq, ← (abs_spec (mul_spec hcfin hdfin).1).2]
    · rw [← coe_real hcfin, ← coe_real hdfin, ← EReal.coe_mul] at hle
      rw [htop] at hlo
      exact absurd (hlo.trans hle) (not_le.mpr (EReal.coe_lt_top _))
    · rw [hbot]
      exact bot_le
  · rw [not_and_or, Bool.not_eq_true, Bool.not_eq_true] at hfin
    obtain ⟨hpoint, hval⟩ := ofProduct_of_infinite hc hd hfin hc0 hd0
    rw [hpoint]
    exact hlo.trans (hle.trans hval.ge)

/-- The lower end of the opposite product is the opposite upper end. -/
theorem ofProduct_neg_lo (a b : Float) : value (ofProduct (-a) b).lo = -value (ofProduct a b).hi := by
  have hturned : Turned true (ofProduct a b) (ofProduct (-a) b) :=
    turned_ofProduct (Binary64.turned_neg a) (.refl b)
  exact hturned.1.2

/-- **The upper end of a product grows with the product**, except from another number to zero. -/
theorem ofProduct_hi_mono (ha : IsNumber a) (hb : IsNumber b) (hc : IsNumber c) (hd : IsNumber d)
    (hle : value a * value b ≤ value c * value d)
    (h0 : value c * value d = 0 → value a * value b = 0) :
    value (ofProduct a b).hi ≤ value (ofProduct c d).hi := by
  have hlower := ofProduct_lo_mono (isNumber_neg hc) hd (isNumber_neg ha) hb
    (by rw [value_neg hc, value_neg ha, neg_mul, neg_mul]; exact EReal.neg_le_neg_iff.mpr hle)
    (by rw [value_neg hc, value_neg ha, neg_mul, neg_mul, EReal.neg_eq_zero_iff,
          EReal.neg_eq_zero_iff]; exact h0)
  rw [ofProduct_neg_lo, ofProduct_neg_lo] at hlower
  exact EReal.neg_le_neg_iff.mp hlower

end CertifiedZeros.Interval
