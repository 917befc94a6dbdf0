import CertifiedZeros.Proofs.Interval.Division
import CertifiedZeros.Proofs.Interval.Power

/-! # Magnitudes and weights

Norms are computed with intervals of numbers that are not negative, and with weights that are at
least one. Such operands stay clear of both ways to lose an error:

* **`IsMagnitude X x`**, **`IsWeight X x`** — `X` encloses `x`, and nothing below zero, or below one.
* **`IsMagnitude.add`** — a sum of magnitudes is enclosed, and its lower end is not negative, so
  that the next sum is enclosed in turn; **`IsWeight.mul_magnitude`** — so for products with a
  weight.
* **`IsWeight.pow`** — powers of weights are weights.
* **`div_weight_mem`** — a quotient by a weight is enclosed, also where both endpoints are
  infinite and a corner of the quotient is NaN. -/

namespace CertifiedZeros.Interval

open Binary64

variable {X Y : Interval} {x y : ℝ} {a b g : Float}

/-! ## Lower ends that stay above a float -/

/-- **A lower end stays above every float below the exact number** when it moves down only from
above that number. -/
theorem le_besides_lo_of_le {s e : Float} {r : ℝ} (hs : s.isFinite = true)
    (hr : value s = clamp (rounded r)) (hg : IsNumber g) (hle : value g ≤ (r : EReal))
    (hside : e < 0 → r < real s) : value g ≤ value (besides s e).lo := by
  have hgs : value g ≤ value s := hr ▸ value_le_clamp_rounded hg hle
  unfold besides
  split_ifs with hpos hneg
  · exact hgs
  · refine le_nextDown_of_value_lt (isNumber_of_isFinite hs) hg (hle.trans_lt ?_)
    rw [← coe_real hs, EReal.coe_lt_coe_iff]
    exact hside hneg
  · exact hgs

/-- Below an overflow there is room for every finite float. -/
theorem le_ofOverflow_lo {s : Float} (hs : IsNumber s) (hg : g.isFinite = true)
    (htop : value s = ⊤) : value g ≤ value (ofOverflow s).lo := by
  rw [ofOverflow, if_pos ((beq_infinity_iff hs).mpr htop)]
  exact (value_between_largest hg).2

/-- A rounded number that is at least a float and infinite has overflowed upwards. -/
theorem eq_top_of_le {s : Float} (hs : IsNumber s) (hinf : s.isFinite = false)
    (hg : g.isFinite = true) (hle : value g ≤ value s) : value s = ⊤ := by
  rcases hs.value_of_not_isFinite hinf with h | h
  · exact h
  · rw [h, ← coe_real hg] at hle
    exact absurd hle (not_le.mpr (EReal.bot_lt_coe _))

/-- Above an overflow to the negative side there is room for every finite float. -/
theorem ofOverflow_hi_le {s : Float} (hs : IsNumber s) (hg : g.isFinite = true)
    (hbot : value s = ⊥) : value (ofOverflow s).hi ≤ value g := by
  rw [ofOverflow, if_neg (by rw [beq_infinity_iff hs, hbot]; simp),
    if_pos ((beq_neg_infinity_iff hs).mpr hbot)]
  exact (value_between_largest hg).1

/-- A rounded number that is at most a float and infinite has overflowed downwards. -/
theorem eq_bot_of_le {s : Float} (hs : IsNumber s) (hinf : s.isFinite = false)
    (hg : g.isFinite = true) (hle : value s ≤ value g) : value s = ⊥ := by
  rcases hs.value_of_not_isFinite hinf with h | h
  · rw [h, ← coe_real hg] at hle
    exact absurd hle (not_le.mpr (EReal.coe_lt_top _))
  · exact h

/-- **The lower end of a product** stays above a float below the exact product, unless the product
is so small that the end is moved for safety. -/
theorem le_ofProduct_lo (ha : a.isFinite = true) (hb : b.isFinite = true) (hg : g.isFinite = true)
    (hle : real g ≤ real a * real b)
    (hsmall : real a * real b ≠ 0 → (a * b).abs < residualFloor → value g < value (a * b)) :
    value g ≤ value (ofProduct a b).lo := by
  have hprod := mul_spec ha hb
  have hgnum := isNumber_of_isFinite hg
  have hle' : value g ≤ ((real a * real b : ℝ) : EReal) := by
    rw [← coe_real hg, EReal.coe_le_coe_iff]
    exact hle
  unfold ofProduct
  by_cases h0 : (a == 0 || b == 0) = true
  · rw [if_pos h0]
    rw [Bool.or_eq_true, beq_zero_iff (isNumber_of_isFinite ha), ← coe_real ha,
      beq_zero_iff (isNumber_of_isFinite hb), ← coe_real hb] at h0
    have hzero : real a * real b = 0 := by
      rcases h0 with h | h
      · rw [EReal.coe_eq_zero.mp h, zero_mul]
      · rw [EReal.coe_eq_zero.mp h, mul_zero]
    rw [hzero] at hle'
    exact hle'.trans value_zero.ge
  · have hne : real a * real b ≠ 0 := by
      rw [Bool.or_eq_true, beq_zero_iff (isNumber_of_isFinite ha), ← coe_real ha,
        beq_zero_iff (isNumber_of_isFinite hb), ← coe_real hb, not_or] at h0
      exact mul_ne_zero (fun h => h0.1 (by rw [h]; rfl)) fun h => h0.2 (by rw [h]; rfl)
    rw [if_neg h0]
    rcases Bool.eq_false_or_eq_true (a * b).isFinite with hp | hp
    · simp only [hp, if_true]
      split_ifs with hfloor
      · exact le_nextDown_of_value_lt hprod.1 hgnum (hsmall hne hfloor)
      · exact le_besides_lo_of_le hp hprod.2 hgnum hle' (fma_neg_product_spec ha hb hp hfloor).2.mp
    · simp only [hp, ha, hb, Bool.false_eq_true, if_false, if_true, Bool.and_self]
      exact le_ofOverflow_lo hprod.1 hg
        (eq_top_of_le hprod.1 hp hg (hprod.2 ▸ value_le_clamp_rounded hgnum hle'))

/-- A product with an infinite operand is that infinity, as a point. -/
theorem ofProduct_of_infinite (ha : IsNumber a) (hb : IsNumber b)
    (hinf : a.isFinite = false ∨ b.isFinite = false) (ha0 : value a ≠ 0) (hb0 : value b ≠ 0) :
    ofProduct a b = point (a * b) ∧ value (a * b) = value a * value b := by
  obtain ⟨-, hval⟩ := mul_infinite ha hb hinf ha0 hb0
  have hzero : ¬(a == 0 || b == 0) = true := by
    rw [Bool.or_eq_true, beq_zero_iff ha, beq_zero_iff hb]
    exact not_or.mpr ⟨ha0, hb0⟩
  have hp : (a * b).isFinite = false := by
    refine isFinite_eq_false ?_
    rw [hval]
    rcases hinf with h | h
    · exact mul_eq_infinite (ha.value_of_not_isFinite h) hb0
    · rw [EReal.mul_comm]
      exact mul_eq_infinite (hb.value_of_not_isFinite h) ha0
  have hand : (a.isFinite && b.isFinite) = false := by
    rcases hinf with h | h <;> simp [h]
  refine ⟨?_, hval⟩
  simp only [ofProduct, hzero, hp, hand, Bool.false_eq_true, if_false]

/-- **A weight times a magnitude** has a lower end that is not negative. -/
theorem zero_le_ofProduct_lo (ha : IsNumber a) (hb : IsNumber b) (h1 : 1 ≤ value a)
    (h0 : 0 ≤ value b) : 0 ≤ value (ofProduct a b).lo := by
  have ha0 : value a ≠ 0 := (zero_lt_one.trans_le h1).ne'
  by_cases hfin : a.isFinite = true ∧ b.isFinite = true
  · obtain ⟨hfa, hfb⟩ := hfin
    rw [← coe_real hfa] at h1
    rw [← coe_real hfb, EReal.coe_nonneg] at h0
    have h1' : 1 ≤ real a := by exact_mod_cast h1
    rw [← value_zero]
    refine le_ofProduct_lo hfa hfb isFinite_zero ?_ fun hne _ => ?_
    · rw [real_zero]
      exact mul_nonneg (by linarith) h0
    · -- the product is at least the second factor, and so does not underflow
      have hpos : 0 < real b := lt_of_le_of_ne h0 fun h => hne (by rw [← h, mul_zero])
      have hle : value b ≤ ((real a * real b : ℝ) : EReal) := by
        rw [← coe_real hfb, EReal.coe_le_coe_iff]
        exact le_mul_of_one_le_left h0 h1'
      rw [(mul_spec hfa hfb).2, value_zero]
      refine lt_of_lt_of_le ?_ (value_le_clamp_rounded hb hle)
      rw [← coe_real hfb]
      exact_mod_cast hpos
  · have hinf : a.isFinite = false ∨ b.isFinite = false := by
      rwa [not_and_or, Bool.not_eq_true, Bool.not_eq_true] at hfin
    by_cases hb0 : value b = 0
    · rw [ofProduct, if_pos (by rw [Bool.or_eq_true, beq_zero_iff hb]; exact .inr hb0)]
      exact value_zero.ge
    · obtain ⟨hpoint, hval⟩ := ofProduct_of_infinite ha hb hinf ha0 hb0
      rw [hpoint]
      exact hval ▸ mul_nonneg (zero_le_one.trans h1) h0

/-- **A weight times a number that is not positive** has an upper end that is not positive. -/
theorem ofProduct_hi_le_zero (ha : IsNumber a) (hb : IsNumber b) (h1 : 1 ≤ value a)
    (h0 : value b ≤ 0) : value (ofProduct a b).hi ≤ 0 := by
  have ha0 : value a ≠ 0 := (zero_lt_one.trans_le h1).ne'
  by_cases hb0 : value b = 0
  · rw [ofProduct, if_pos (by rw [Bool.or_eq_true, beq_zero_iff hb]; exact .inr hb0)]
    exact value_zero.le
  by_cases hfin : a.isFinite = true ∧ b.isFinite = true
  · obtain ⟨hfa, hfb⟩ := hfin
    have hprod := mul_spec hfa hfb
    have hneg : value (a * b) < 0 := by
      -- the product is at most the second factor, and so does not underflow
      have hle : ((real a * real b : ℝ) : EReal) ≤ value b := by
        rw [← coe_real hfb, EReal.coe_le_coe_iff]
        rw [← coe_real hfa] at h1
        rw [← coe_real hfb] at h0
        exact mul_le_of_one_le_left (by exact_mod_cast h0) (by exact_mod_cast h1)
      rw [hprod.2]
      exact (clamp_rounded_le_value hb hle).trans_lt (lt_of_le_of_ne h0 hb0)
    have hnext : value (nextUp (a * b)) ≤ 0 :=
      value_zero ▸ nextUp_le_of_value_lt hprod.1 zero_isNumber (value_zero.symm ▸ hneg)
    unfold ofProduct
    dsimp only
    split_ifs with hzero hp hfloor hboth
    · exact value_zero.le
    · exact hnext
    · exact (besides_hi_le_nextUp hprod.1).trans hnext
    · have hbot := eq_bot_of_le hprod.1 (Bool.eq_false_iff.mpr hp) isFinite_zero
        (value_zero.symm ▸ hneg.le)
      exact value_zero ▸ ofOverflow_hi_le hprod.1 isFinite_zero hbot
    · exact absurd ((Bool.and_eq_true _ _).mpr ⟨hfa, hfb⟩) hboth
  · have hinf : a.isFinite = false ∨ b.isFinite = false := by
      rwa [not_and_or, Bool.not_eq_true, Bool.not_eq_true] at hfin
    obtain ⟨hpoint, hval⟩ := ofProduct_of_infinite ha hb hinf ha0 hb0
    rw [hpoint]
    exact hval ▸ mul_nonpos_of_nonneg_of_nonpos (zero_le_one.trans h1) h0
/-- **A product of weights** has a lower end of at least one. -/
theorem one_le_ofProduct_lo (ha : IsNumber a) (hb : IsNumber b) (h1 : 1 ≤ value a)
    (h1' : 1 ≤ value b) : 1 ≤ value (ofProduct a b).lo := by
  by_cases hfin : a.isFinite = true ∧ b.isFinite = true
  · obtain ⟨hfa, hfb⟩ := hfin
    rw [← coe_real hfa] at h1
    rw [← coe_real hfb] at h1'
    have hra : 1 ≤ real a := by exact_mod_cast h1
    have hrb : 1 ≤ real b := by exact_mod_cast h1'
    have hle : real (1 : Float) ≤ real a * real b := by
      rw [real_one]
      exact one_le_mul_of_one_le_of_one_le hra hrb
    refine le_trans value_one.ge (le_ofProduct_lo hfa hfb isFinite_one hle fun _ hsmall => ?_)
    -- a product of weights is far from being small
    have hprod := mul_spec hfa hfb
    have hone : value (1 : Float) ≤ value (a * b) := by
      rw [hprod.2]
      refine value_le_clamp_rounded one_isNumber ?_
      rw [← coe_real isFinite_one]
      exact_mod_cast hle
    have hfloor : residualFloor < 1 := by decide
    obtain ⟨-, habs⟩ := abs_spec hprod.1
    have hlt := (lt_iff.mp hsmall).2.2.trans (lt_iff.mp hfloor).2.2
    rw [habs, max_lt_iff] at hlt
    exact absurd hlt.1 (not_lt.mpr hone)
  · have hinf : a.isFinite = false ∨ b.isFinite = false := by
      rwa [not_and_or, Bool.not_eq_true, Bool.not_eq_true] at hfin
    obtain ⟨hpoint, hval⟩ := ofProduct_of_infinite ha hb hinf (zero_lt_one.trans_le h1).ne'
      (zero_lt_one.trans_le h1').ne'
    rw [hpoint]
    calc (1 : EReal) = 1 * 1 := (mul_one 1).symm
      _ ≤ value a * value b := mul_le_mul h1 h1' zero_le_one (zero_le_one.trans h1)
      _ = value (a * b) := hval.symm

/-- **A sum of magnitudes** has a lower end that is not negative. -/
theorem zero_le_ofSum_lo (ha : IsNumber a) (hb : IsNumber b) (h0 : 0 ≤ value a)
    (h0' : 0 ≤ value b) : 0 ≤ value (ofSum a b).lo := by
  by_cases hfin : a.isFinite = true ∧ b.isFinite = true
  · obtain ⟨hfa, hfb⟩ := hfin
    have hsum := add_spec hfa hfb
    rw [← coe_real hfa, EReal.coe_nonneg] at h0
    rw [← coe_real hfb, EReal.coe_nonneg] at h0'
    have hle : value (0 : Float) ≤ ((real a + real b : ℝ) : EReal) := by
      rw [value_zero]
      exact_mod_cast add_nonneg h0 h0'
    rw [← value_zero]
    unfold ofSum
    rcases Bool.eq_false_or_eq_true (a + b).isFinite with hs | hs
    · simp only [hs, if_true]
      refine le_besides_lo_of_le hs hsum.2 zero_isNumber hle fun hneg => ?_
      -- the first difference is at most the sum, so the error is computed exactly
      have has : real a ≤ real (a + b) := by
        rw [real_eq_rounded hsum.2 hs]
        exact le_rounded (representable_real hfa) (by linarith)
      have hdiff := sub_spec hs hfa
      have hlt : |rounded (real (a + b) - real a)| < limit := by
        rw [abs_of_nonneg (le_rounded representable_zero (by linarith))]
        exact (rounded_le (representable_real hs) (by linarith)).trans_lt
          ((le_abs_self _).trans_lt (abs_real_lt hs))
      rw [clamp_of_lt hlt] at hdiff
      obtain ⟨hef, her⟩ := sumError_spec hfa hfb hs (isFinite_of_value hdiff.1 hdiff.2)
      rw [neg_iff hef, her] at hneg
      linarith
    · simp only [hs, hfa, hfb, Bool.false_eq_true, if_false, if_true, Bool.and_self]
      exact le_ofOverflow_lo hsum.1 isFinite_zero
        (eq_top_of_le hsum.1 hs isFinite_zero (hsum.2 ▸ value_le_clamp_rounded zero_isNumber hle))
  · have hinf : a.isFinite = false ∨ b.isFinite = false := by
      rwa [not_and_or, Bool.not_eq_true, Bool.not_eq_true] at hfin
    have hbot : ∀ {u : EReal}, 0 ≤ u → u ≠ ⊥ := fun h hu => absurd (hu ▸ h) (by simp)
    obtain ⟨hnum, hval⟩ := add_infinite ha hb hinf (fun h => hbot h0' h.2) (fun h => hbot h0 h.1)
    rw [ofSum_eq_point hinf]
    exact hval ▸ add_nonneg h0 h0'

/-! ## Intervals of magnitudes and of weights -/

/-- **An enclosure of a magnitude**: `X` holds `x`, and nothing below zero. -/
def IsMagnitude (X : Interval) (x : ℝ) : Prop := x ∈ X ∧ 0 ≤ value X.lo

/-- **An enclosure of a weight**: `X` holds `x`, and nothing below one. -/
def IsWeight (X : Interval) (x : ℝ) : Prop := x ∈ X ∧ 1 ≤ value X.lo

theorem IsMagnitude.nonneg (h : IsMagnitude X x) : 0 ≤ x := by
  exact_mod_cast h.2.trans h.1.2.2.1

theorem IsWeight.one_le (h : IsWeight X x) : 1 ≤ x := by
  exact_mod_cast h.2.trans h.1.2.2.1

/-- Every end of an interval is at least its lower end. -/
theorem le_of_mem_ends {c : EReal} (hx : x ∈ X) (hc : c ≤ value X.lo) :
    ∀ a ∈ [X.lo, X.hi], IsNumber a ∧ c ≤ value a := by
  simp only [List.mem_cons, List.not_mem_nil, or_false, forall_eq_or_imp, forall_eq]
  exact ⟨⟨hx.1, hc⟩, hx.2.1, hc.trans (hx.2.2.1.trans hx.2.2.2)⟩

theorem zero_isMagnitude : IsMagnitude 0 0 := ⟨zero_brackets, value_zero.ge⟩

theorem abs_isMagnitude (hx : x ∈ X) : IsMagnitude X.abs |x| :=
  ⟨abs_mem hx, abs_lo_nonneg (Brackets.hasNumbers hx)⟩

/-- **A sum of magnitudes is enclosed**, and is a magnitude again. -/
theorem IsMagnitude.add (hX : IsMagnitude X x) (hY : IsMagnitude Y y) :
    IsMagnitude (X + Y) (x + y) := by
  refine ⟨add_mem (sumAbove_of_nonneg hX.2) (sumBelow_of_nonneg hY.nonneg hY.1.2.2.2) hX.1 hY.1, ?_⟩
  rw [add_lo]
  exact zero_le_ofSum_lo hX.1.1 hY.1.1 hX.2 hY.2

/-- The lower end of a product of intervals without zero divisors is a lower end at a corner. -/
theorem le_mul_lo {c : EReal} (hx : x ∈ X) (hy : y ∈ Y) (h0 : (X == 0 || Y == 0) = true → c ≤ 0)
    (h : ∀ a ∈ [X.lo, X.hi], ∀ b ∈ [Y.lo, Y.hi], c ≤ value (ofProduct a b).lo) :
    c ≤ value (X * Y).lo := by
  have hdef : X * Y = if X == 0 || Y == 0 then 0 else corners ofProduct X Y := rfl
  rw [hdef]
  split_ifs with hzero
  · exact (h0 hzero).trans value_zero.ge
  · have hnum : ∀ a ∈ [X.lo, X.hi], ∀ b ∈ [Y.lo, Y.hi], (ofProduct a b).HasNumbers :=
      fun a ha b hb => (ofProduct_brackets (le_of_mem_ends hx bot_le a ha).1
        (le_of_mem_ends hy bot_le b hb).1).hasNumbers
    obtain ⟨-, hlower, -⟩ := corners_spec hnum
    obtain ⟨a, ha, b, hb, hle⟩ := (hlower _).mp le_rfl
    exact (h a ha b hb).trans hle

/-- The upper end of a product of intervals without zero divisors is an upper end at a corner. -/
theorem mul_hi_le {c : EReal} (hx : x ∈ X) (hy : y ∈ Y) (h0 : (X == 0 || Y == 0) = true → 0 ≤ c)
    (h : ∀ a ∈ [X.lo, X.hi], ∀ b ∈ [Y.lo, Y.hi], value (ofProduct a b).hi ≤ c) :
    value (X * Y).hi ≤ c := by
  have hdef : X * Y = if X == 0 || Y == 0 then 0 else corners ofProduct X Y := rfl
  rw [hdef]
  split_ifs with hzero
  · exact value_zero.le.trans (h0 hzero)
  · have hnum : ∀ a ∈ [X.lo, X.hi], ∀ b ∈ [Y.lo, Y.hi], (ofProduct a b).HasNumbers :=
      fun a ha b hb => (ofProduct_brackets (le_of_mem_ends hx bot_le a ha).1
        (le_of_mem_ends hy bot_le b hb).1).hasNumbers
    obtain ⟨-, -, hupper⟩ := corners_spec hnum
    obtain ⟨a, ha, b, hb, hle⟩ := (hupper _).mp le_rfl
    exact hle.trans (h a ha b hb)

/-- **A weight times a magnitude** is a magnitude. -/
theorem IsWeight.mul_magnitude (hX : IsWeight X x) (hY : IsMagnitude Y y) :
    IsMagnitude (X * Y) (x * y) := by
  refine ⟨mul_mem hX.1 hY.1, le_mul_lo hX.1 hY.1 (fun _ => le_rfl) fun a ha b hb => ?_⟩
  obtain ⟨hanum, ha1⟩ := le_of_mem_ends hX.1 hX.2 a ha
  obtain ⟨hbnum, hb0⟩ := le_of_mem_ends hY.1 hY.2 b hb
  exact zero_le_ofProduct_lo hanum hbnum ha1 hb0

/-- An interval without numbers below one is not the zero of the arithmetic. -/
theorem IsWeight.ne_zero (hX : IsWeight X x) : ¬(X == 0) = true := fun h =>
  absurd (eq_zero_of_mem h hX.1) (zero_lt_one.trans_le hX.one_le).ne'

theorem two_isWeight : IsWeight ((2 : ℕ) : Interval) ((2 : ℕ) : ℝ) := by
  obtain ⟨hfin, hreal⟩ := natCast_spec (n := 2) (by norm_num)
  refine ⟨count_mem (by norm_num), ?_⟩
  change 1 ≤ value ((2 : ℕ) : Float)
  rw [← coe_real hfin, hreal]
  exact_mod_cast (by norm_num : (1 : ℝ) ≤ 2)

/-- **A product of weights** is a weight. -/
theorem IsWeight.mul (hX : IsWeight X x) (hY : IsWeight Y y) : IsWeight (X * Y) (x * y) := by
  refine ⟨mul_mem hX.1 hY.1, le_mul_lo hX.1 hY.1 (fun h => ?_) fun a ha b hb => ?_⟩
  · rw [Bool.or_eq_true] at h
    exact absurd h (not_or.mpr ⟨hX.ne_zero, hY.ne_zero⟩)
  · obtain ⟨hanum, ha1⟩ := le_of_mem_ends hX.1 hX.2 a ha
    obtain ⟨hbnum, hb1⟩ := le_of_mem_ends hY.1 hY.2 b hb
    exact one_le_ofProduct_lo hanum hbnum ha1 hb1

theorem one_le_powerBelow (ha : IsNumber a) (h : 1 ≤ value a) (n : ℕ) :
    IsNumber (powerBelow a n) ∧ 1 ≤ value (powerBelow a n) := by
  induction n with
  | zero => exact ⟨one_isNumber, value_one.ge⟩
  | succ n ih =>
    rw [powerBelow_succ]
    exact ⟨(ofProduct_brackets ih.1 ha).1, one_le_ofProduct_lo ih.1 ha ih.2 h⟩

/-- **A power of a weight** is a weight. -/
theorem IsWeight.pow (hX : IsWeight X x) (n : ℕ) : IsWeight (X ^ n) (x ^ n) := by
  refine ⟨power_mem hX.1 n, ?_⟩
  have hpos : X.lo ≥ 0 := (nonneg_iff hX.1.1).mpr (zero_le_one.trans hX.2)
  have habs : X.abs = X := if_pos hpos
  change 1 ≤ value (X.power n).lo
  have hchain := (one_le_powerBelow hX.1.1 hX.2 n).2
  unfold power
  by_cases h0 : n = 0
  · rw [if_pos h0]
    exact value_one.ge
  · rw [if_neg h0, habs]
    by_cases heven : n % 2 = 0
    · rw [if_pos heven]
      exact hchain
    · rw [if_neg heven, mk_lo, if_pos hpos]
      exact hchain

/-! ## Quotients by weights -/

/-- **The remainder of a quotient by a weight does not underflow**: it is a multiple of the smallest
positive float, and so vanishes only when the quotient is exact. -/
theorem eq_of_remainderVanishes (ha : a.isFinite = true) (hb : b.isFinite = true) (h1 : 1 ≤ real b)
    (h : remainderVanishes a b = true) : real (a / b) = real a / real b := by
  have hb0 : 0 < real b := zero_lt_one.trans_le h1
  obtain ⟨hq, hsmall, hzero⟩ := rounded_remainder_eq_zero ha hb h
  have hside : sideFactor b = 1 := if_pos hb0
  rw [hside, one_mul, abs_of_pos hb0] at hzero
  have hqgrid : OnGrid (-1016) (real (a / b)) := by
    refine (representable_real hq).onGrid (le_unitExponent_of_le ?_)
    exact zpow_le_abs_of_not_lt hq hsmall
  have hbgrid : OnGrid (-52) (real b) := by
    refine (representable_real hb).onGrid (le_unitExponent_of_le ?_)
    rw [abs_of_pos hb0]
    norm_num
    exact h1
  have hgrid : OnGrid (-1074) (real a - real (a / b) * real b) :=
    (representable_real ha).onGrid_least.sub ((hqgrid.mul hbgrid).mono (by norm_num))
  have hrem : real a - real (a / b) * real b = 0 := by
    refine le_antisymm ?_ ?_
    · exact not_lt.mp fun hpos => absurd hzero ((rounded_pos_iff le_rfl hgrid).mpr hpos).ne'
    · refine not_lt.mp fun hneg => ?_
      have hpos := (rounded_pos_iff le_rfl hgrid.neg).mpr (neg_pos.mpr hneg)
      rw [rounded_neg, hzero, neg_zero] at hpos
      exact lt_irrefl _ hpos
  rw [eq_div_iff hb0.ne']
  linarith

/-- **A quotient by a weight is enclosed.** -/
theorem ofQuotient_brackets (ha : a.isFinite = true) (hb : b.isFinite = true) (h1 : 1 ≤ real b) :
    (ofQuotient a b).Brackets ((real a / real b : ℝ) : EReal) := by
  obtain ⟨hlo, hhi, hlower, hupper⟩ := ofQuotient_spec ha hb (zero_lt_one.trans_le h1).ne'
  refine ⟨hlo, hhi, hlower.mpr fun h => ?_, hupper.mpr fun h => ?_⟩
  · exact absurd h.2 (eq_of_remainderVanishes ha hb h1 h.1).le.not_gt
  · exact absurd h.2 (eq_of_remainderVanishes ha hb h1 h.1).ge.not_gt

/-- A quotient of a finite float by an infinity surrounds zero. -/
theorem ofQuotient_of_infinite (ha : a.isFinite = true) (hb : IsNumber b)
    (hinf : b.isFinite = false) : (ofQuotient a b).Brackets 0 := by
  obtain ⟨hnum, hval⟩ := div_of_infinite ha hb hinf
  have hfin : (a / b).isFinite = true := isFinite_of_value (r := 0) hnum (by rw [hval]; rfl)
  have hbinf : b.isInf = true := isInf_iff.mpr ⟨hb, hb.value_of_not_isFinite hinf⟩
  by_cases h0 : (a == 0) = true
  · rw [ofQuotient, if_pos h0]
    exact zero_brackets
  · simp only [ofQuotient, h0, hfin, hbinf, Bool.or_true, if_true, Bool.false_eq_true, if_false]
    exact around_brackets (r := 0) hfin (by rw [hval, clamp_rounded_zero])

/-- A quotient of an infinity by a weight is that infinity. -/
theorem infinite_ofQuotient (ha : IsNumber a) (hinf : a.isFinite = false) (hb : b.isFinite = true)
    (h1 : 1 ≤ real b) : (ofQuotient a b).Brackets (value a) := by
  obtain ⟨hnum, hval⟩ := infinite_div ha hinf hb (zero_lt_one.trans_le h1)
  have hne : ¬(a == 0) = true := by
    rw [beq_zero_iff ha]
    rcases ha.value_of_not_isFinite hinf with h | h <;> rw [h] <;> simp
  have hq : (a / b).isFinite = false := by
    rw [← Bool.not_eq_true, isFinite_iff, not_and]
    intro _ ⟨r, hr⟩
    rw [hval] at hr
    rcases ha.value_of_not_isFinite hinf with h | h <;> rw [h] at hr <;> simp at hr
  simp only [ofQuotient, hne, hq, hinf, Bool.false_eq_true, if_false]
  exact ⟨hnum, hnum, hval.le, hval.ge⟩

/-! ## Hulls with NaN among their parts -/

theorem larger_of_nan_right {c d : Float} (hc : IsNumber c) (hd : ¬IsNumber d) :
    Binary64.larger c d = c := by
  unfold Binary64.larger
  rw [show c.isNaN = false from hc, (Bool.not_eq_false _).mp hd]
  rfl

theorem larger_of_nan_left {c d : Float} (hc : ¬IsNumber c) : Binary64.larger c d = d := by
  unfold Binary64.larger
  rw [(Bool.not_eq_false _).mp hc]
  rfl

theorem smaller_of_nan_right {c d : Float} (hc : IsNumber c) (hd : ¬IsNumber d) :
    Binary64.smaller c d = c := by
  unfold Binary64.smaller
  rw [show c.isNaN = false from hc, (Bool.not_eq_false _).mp hd]
  rfl

theorem smaller_of_nan_left {c d : Float} (hc : ¬IsNumber c) : Binary64.smaller c d = d := by
  unfold Binary64.smaller
  rw [(Bool.not_eq_false _).mp hc]
  rfl

/-- The larger of two floats is at least each of them that is a number. -/
theorem le_larger {c d : Float} :
    (IsNumber c → IsNumber (Binary64.larger c d) ∧ value c ≤ value (Binary64.larger c d)) ∧
      (IsNumber d → IsNumber (Binary64.larger c d) ∧ value d ≤ value (Binary64.larger c d)) := by
  by_cases hc : IsNumber c
  · by_cases hd : IsNumber d
    · obtain ⟨hnum, hval⟩ := larger_spec hc hd
      rw [hval]
      exact ⟨fun _ => ⟨hnum, le_max_left _ _⟩, fun _ => ⟨hnum, le_max_right _ _⟩⟩
    · rw [larger_of_nan_right hc hd]
      exact ⟨fun _ => ⟨hc, le_rfl⟩, fun h => absurd h hd⟩
  · rw [larger_of_nan_left hc]
    exact ⟨fun h => absurd h hc, fun h => ⟨h, le_rfl⟩⟩

/-- The smaller of two floats is at most each of them that is a number. -/
theorem smaller_le {c d : Float} :
    (IsNumber c → IsNumber (Binary64.smaller c d) ∧ value (Binary64.smaller c d) ≤ value c) ∧
      (IsNumber d → IsNumber (Binary64.smaller c d) ∧ value (Binary64.smaller c d) ≤ value d) := by
  by_cases hc : IsNumber c
  · by_cases hd : IsNumber d
    · obtain ⟨hnum, hval⟩ := smaller_spec hc hd
      rw [hval]
      exact ⟨fun _ => ⟨hnum, min_le_left _ _⟩, fun _ => ⟨hnum, min_le_right _ _⟩⟩
    · rw [smaller_of_nan_right hc hd]
      exact ⟨fun _ => ⟨hc, le_rfl⟩, fun h => absurd h hd⟩
  · rw [smaller_of_nan_left hc]
    exact ⟨fun h => absurd h hc, fun h => ⟨h, le_rfl⟩⟩

/-- **The upper end of a hull of four** is at least each upper end that is a number. -/
theorem le_corners_hi {f : Float → Float → Interval} (ha : a ∈ [X.lo, X.hi]) (hb : b ∈ [Y.lo, Y.hi])
    (h : IsNumber (f a b).hi) :
    IsNumber (corners f X Y).hi ∧ value (f a b).hi ≤ value (corners f X Y).hi := by
  have hstep : ∀ {c d e : Float}, (IsNumber c ∧ value e ≤ value c) →
      IsNumber (Binary64.larger c d) ∧ value e ≤ value (Binary64.larger c d) := fun h =>
    ⟨(le_larger.1 h.1).1, h.2.trans (le_larger.1 h.1).2⟩
  simp only [List.mem_cons, List.not_mem_nil, or_false] at ha hb
  change IsNumber (Binary64.larger (Binary64.larger (Binary64.larger (f X.lo Y.lo).hi
      (f X.lo Y.hi).hi) (f X.hi Y.lo).hi) (f X.hi Y.hi).hi) ∧ _ ≤ value (Binary64.larger
    (Binary64.larger (Binary64.larger (f X.lo Y.lo).hi (f X.lo Y.hi).hi) (f X.hi Y.lo).hi)
      (f X.hi Y.hi).hi)
  rcases ha with rfl | rfl <;> rcases hb with rfl | rfl
  · exact hstep (hstep (le_larger.1 h))
  · exact hstep (hstep (le_larger.2 h))
  · exact hstep (le_larger.2 h)
  · exact le_larger.2 h

/-- **The lower end of a hull of four** is at most each lower end that is a number. -/
theorem corners_lo_le {f : Float → Float → Interval} (ha : a ∈ [X.lo, X.hi]) (hb : b ∈ [Y.lo, Y.hi])
    (h : IsNumber (f a b).lo) :
    IsNumber (corners f X Y).lo ∧ value (corners f X Y).lo ≤ value (f a b).lo := by
  have hstep : ∀ {c d e : Float}, (IsNumber c ∧ value c ≤ value e) →
      IsNumber (Binary64.smaller c d) ∧ value (Binary64.smaller c d) ≤ value e := fun h =>
    ⟨(smaller_le.1 h.1).1, (smaller_le.1 h.1).2.trans h.2⟩
  simp only [List.mem_cons, List.not_mem_nil, or_false] at ha hb
  change IsNumber (Binary64.smaller (Binary64.smaller (Binary64.smaller (f X.lo Y.lo).lo
      (f X.lo Y.hi).lo) (f X.hi Y.lo).lo) (f X.hi Y.hi).lo) ∧ value (Binary64.smaller
    (Binary64.smaller (Binary64.smaller (f X.lo Y.lo).lo (f X.lo Y.hi).lo) (f X.hi Y.lo).lo)
      (f X.hi Y.hi).lo) ≤ _
  rcases ha with rfl | rfl <;> rcases hb with rfl | rfl
  · exact hstep (hstep (smaller_le.1 h))
  · exact hstep (hstep (smaller_le.2 h))
  · exact hstep (smaller_le.2 h)
  · exact smaller_le.2 h

/-! ## Quotients of intervals by weights -/

/-- The lower end of a weight is finite. -/
theorem IsWeight.lo_spec (hY : IsWeight Y y) :
    Y.lo.isFinite = true ∧ 1 ≤ real Y.lo ∧ real Y.lo ≤ y := by
  obtain ⟨hYl, -, hyl, -⟩ := mem_iff.mp hY.1
  have hfin : Y.lo.isFinite = true := isFinite_iff.mpr ⟨hYl, _,
    (EReal.coe_toReal (ne_top_of_le_coe hyl) (ne_bot_of_coe_le (r := 1) hY.2)).symm⟩
  have h1 := hY.2
  rw [← coe_real hfin] at h1 hyl
  exact ⟨hfin, by exact_mod_cast h1, by exact_mod_cast hyl⟩

/-- **The upper end of a quotient by a weight**: the greatest dividend goes with the least divisor, a
negative one with the greatest. -/
theorem exists_div_le (hx : x ∈ X) (hY : IsWeight Y y) : ∃ a ∈ [X.lo, X.hi], ∃ b ∈ [Y.lo, Y.hi],
    IsNumber (ofQuotient a b).hi ∧ ((x / y : ℝ) : EReal) ≤ value (ofQuotient a b).hi := by
  obtain ⟨-, hXh, -, hxh⟩ := mem_iff.mp hx
  obtain ⟨-, hYh, -, hyh⟩ := mem_iff.mp hY.1
  obtain ⟨hYl, h1, hyl⟩ := hY.lo_spec
  have hy0 : 0 < y := zero_lt_one.trans_le hY.one_le
  rcases hXh.cases with hXfin | ⟨hinf, htop | hbot⟩
  · rw [← coe_real hXfin, EReal.coe_le_coe_iff] at hxh
    have hquot : x / y ≤ real X.hi / y := div_le_div_of_nonneg_right hxh hy0.le
    rcases le_total 0 (real X.hi) with hpos | hneg
    · obtain ⟨-, hnum, -, hle⟩ := ofQuotient_brackets hXfin hYl h1
      refine ⟨X.hi, by simp, Y.lo, by simp, hnum, le_trans ?_ hle⟩
      rw [EReal.coe_le_coe_iff]
      exact hquot.trans (div_le_div_of_nonneg_left hpos (zero_lt_one.trans_le h1) hyl)
    · rcases Bool.eq_false_or_eq_true Y.hi.isFinite with hYfin | hYinf
      · rw [← coe_real hYfin, EReal.coe_le_coe_iff] at hyh
        obtain ⟨-, hnum, -, hle⟩ := ofQuotient_brackets hXfin hYfin (h1.trans (hyl.trans hyh))
        refine ⟨X.hi, by simp, Y.hi, by simp, hnum, le_trans ?_ hle⟩
        rw [EReal.coe_le_coe_iff]
        refine hquot.trans ?_
        rw [div_eq_mul_inv, div_eq_mul_inv]
        exact mul_le_mul_of_nonpos_left (inv_anti₀ hy0 hyh) hneg
      · obtain ⟨-, hnum, -, hle⟩ := ofQuotient_of_infinite hXfin hYh hYinf
        refine ⟨X.hi, by simp, Y.hi, by simp, hnum, le_trans ?_ hle⟩
        exact_mod_cast div_nonpos_of_nonpos_of_nonneg (hxh.trans hneg) hy0.le
  · obtain ⟨-, hnum, -, hle⟩ := infinite_ofQuotient hXh hinf hYl h1
    refine ⟨X.hi, by simp, Y.lo, by simp, hnum, le_trans ?_ hle⟩
    rw [htop]
    exact le_top
  · rw [hbot] at hxh
    exact absurd hxh (not_le.mpr (EReal.bot_lt_coe x))

/-- **The lower end of a quotient by a weight**: the least dividend goes with the least divisor when
it is negative, and else with the greatest. -/
theorem exists_le_div (hx : x ∈ X) (hY : IsWeight Y y) : ∃ a ∈ [X.lo, X.hi], ∃ b ∈ [Y.lo, Y.hi],
    IsNumber (ofQuotient a b).lo ∧ value (ofQuotient a b).lo ≤ ((x / y : ℝ) : EReal) := by
  obtain ⟨hXl, -, hxl, -⟩ := mem_iff.mp hx
  obtain ⟨-, hYh, -, hyh⟩ := mem_iff.mp hY.1
  obtain ⟨hYl, h1, hyl⟩ := hY.lo_spec
  have hy0 : 0 < y := zero_lt_one.trans_le hY.one_le
  rcases hXl.cases with hXfin | ⟨hinf, htop | hbot⟩
  · rw [← coe_real hXfin, EReal.coe_le_coe_iff] at hxl
    have hquot : real X.lo / y ≤ x / y := div_le_div_of_nonneg_right hxl hy0.le
    rcases le_total 0 (real X.lo) with hpos | hneg
    · rcases Bool.eq_false_or_eq_true Y.hi.isFinite with hYfin | hYinf
      · rw [← coe_real hYfin, EReal.coe_le_coe_iff] at hyh
        obtain ⟨hnum, -, hle, -⟩ := ofQuotient_brackets hXfin hYfin (h1.trans (hyl.trans hyh))
        refine ⟨X.lo, by simp, Y.hi, by simp, hnum, hle.trans ?_⟩
        rw [EReal.coe_le_coe_iff]
        exact (div_le_div_of_nonneg_left hpos hy0 hyh).trans hquot
      · obtain ⟨hnum, -, hle, -⟩ := ofQuotient_of_infinite hXfin hYh hYinf
        refine ⟨X.lo, by simp, Y.hi, by simp, hnum, hle.trans ?_⟩
        exact_mod_cast div_nonneg (hpos.trans hxl) hy0.le
    · obtain ⟨hnum, -, hle, -⟩ := ofQuotient_brackets hXfin hYl h1
      refine ⟨X.lo, by simp, Y.lo, by simp, hnum, hle.trans ?_⟩
      rw [EReal.coe_le_coe_iff]
      refine le_trans ?_ hquot
      rw [div_eq_mul_inv, div_eq_mul_inv]
      exact mul_le_mul_of_nonpos_left (inv_anti₀ (zero_lt_one.trans_le h1) hyl) hneg
  · rw [htop] at hxl
    exact absurd hxl (not_le.mpr (EReal.coe_lt_top x))
  · obtain ⟨hnum, -, hle, -⟩ := infinite_ofQuotient hXl hinf hYl h1
    refine ⟨X.lo, by simp, Y.lo, by simp, hnum, hle.trans ?_⟩
    rw [hbot]
    exact bot_le

/-- **A quotient by a weight is enclosed**, without any condition. -/
theorem div_weight_mem (hx : x ∈ X) (hY : IsWeight Y y) : x / y ∈ X / Y := by
  have hdef : X / Y = if Y.lo ≤ 0 && Y.hi ≥ 0 then entire else corners ofQuotient X Y := rfl
  have hsign : ¬(Y.lo ≤ 0 && Y.hi ≥ 0 : Bool) = true := by
    rw [← zero_mem_iff (Brackets.hasNumbers hY.1)]
    exact fun h => absurd (hY.2.trans h.2.2.1) (by norm_num)
  obtain ⟨a, ha, b, hb, hhi, hle⟩ := exists_div_le hx hY
  obtain ⟨a', ha', b', hb', hlo, hge⟩ := exists_le_div hx hY
  obtain ⟨hhi', hle'⟩ := le_corners_hi ha hb hhi
  obtain ⟨hlo', hge'⟩ := corners_lo_le ha' hb' hlo
  rw [hdef, if_neg hsign]
  exact ⟨hlo', hhi', hge'.trans hge, hle.trans hle'⟩

end CertifiedZeros.Interval
