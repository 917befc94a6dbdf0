import CertifiedZeros.Proofs.Interval.NotANumber

/-! # What remains of the order of endpoints

Infinite endpoints and NaN get into a computation, and a sum of intervals can then have a NaN at one
end alone. What survives is enough to read off zeros and lower bounds of magnitudes:

* **`Orderly X`** — the upper end is not below the lower one, and a finite end has a number across
  from it. Products are orderly whatever the factors are (**`orderly_mul`**), and sums of orderly
  intervals are (**`Orderly.add`**). An orderly interval with a zero end holds zero.
* **`NotBelow c X`** — the upper end is not below `c`, as a NaN never is. Sums of absolute values keep
  this (**`notBelow_leftSum`**).
* **`hasZeroEnd_of_double`**, **`IsWeight.mul_hasZeroEnd`** — zero ends of sums and products that come
  from nowhere else. -/

namespace CertifiedZeros.Interval

open Binary64

variable {X Y : Interval} {x c d : ℝ} {a b : Float}

/-! ## Ends in order -/

/-- **The ends are in order**: the upper one is not below the lower one, and when either is finite, both
are numbers. -/
structure Orderly (X : Interval) : Prop where
  not_reversed : ¬X.hi < X.lo
  le_of_finite : X.lo.isFinite = true ∨ X.hi.isFinite = true → X.lo ≤ X.hi

theorem orderly_of_le (h : X.lo ≤ X.hi) : X.Orderly :=
  ⟨fun hlt => absurd (lt_iff.mp hlt).2.2 (not_lt.mpr (le_iff.mp h).2.2), fun _ => h⟩

theorem IsNaN.orderly (h : X.IsNaN) : X.Orderly where
  not_reversed hlt := h.1 (lt_iff.mp hlt).2.1
  le_of_finite hfin := by
    rcases hfin with hfin | hfin
    · exact absurd (isNumber_of_isFinite hfin) h.1
    · exact absurd (isNumber_of_isFinite hfin) h.2

theorem orderly_point (a : Float) : (point a).Orderly := by
  by_cases ha : IsNumber a
  · exact orderly_of_le (le_iff.mpr ⟨ha, ha, le_rfl⟩)
  · exact (isNaN_point ha).orderly

theorem Orderly.neg (h : X.Orderly) : (-X).Orderly where
  not_reversed hlt := by
    rw [neg_lo, neg_hi] at hlt
    obtain ⟨hl, hh, hvalue⟩ := lt_iff.mp hlt
    have hXl : IsNumber X.lo := by_contra fun hn => not_isNumber_neg hn hl
    have hXh : IsNumber X.hi := by_contra fun hn => not_isNumber_neg hn hh
    rw [value_neg hXl, value_neg hXh] at hvalue
    exact h.not_reversed (lt_iff.mpr ⟨hXh, hXl, EReal.neg_lt_neg_iff.mp hvalue⟩)
  le_of_finite hfin := by
    rw [neg_lo, neg_hi] at hfin
    exact neg_lo_le_neg_hi (h.le_of_finite (hfin.symm.imp isFinite_of_neg isFinite_of_neg))

/-- The rounded sum lies in the interval of the sum. -/
theorem ofSum_brackets_add (h : IsNumber (a + b)) : (ofSum a b).Brackets (value (a + b)) := by
  by_cases hfin : a.isFinite = true ∧ b.isFinite = true
  · unfold ofSum
    rcases Bool.eq_false_or_eq_true (a + b).isFinite with hs | hs
    · simp only [hs, if_true]
      exact besides_brackets hs
    · simp only [hs, hfin.1, hfin.2, Bool.false_eq_true, if_false, if_true, Bool.and_self]
      exact ofOverflow_brackets_self h hs
  · rw [not_and_or, Bool.not_eq_true, Bool.not_eq_true] at hfin
    rw [ofSum_eq_point hfin]
    exact ⟨h, h, le_rfl, le_rfl⟩

theorem isNumber_of_ofSum (h : IsNumber (ofSum a b).lo ∨ IsNumber (ofSum a b).hi) :
    IsNumber (a + b) := by
  by_cases hfin : a.isFinite = true ∧ b.isFinite = true
  · exact (add_spec hfin.1 hfin.2).1
  · rw [not_and_or, Bool.not_eq_true, Bool.not_eq_true] at hfin
    rw [ofSum_eq_point hfin] at h
    exact h.elim id id

theorem isFinite_of_ofSum (h : (ofSum a b).lo.isFinite = true ∨ (ofSum a b).hi.isFinite = true) :
    a.isFinite = true ∧ b.isFinite = true := by
  by_contra hfin
  rw [not_and_or, Bool.not_eq_true, Bool.not_eq_true] at hfin
  rw [ofSum_eq_point hfin] at h
  obtain ⟨ha, hb⟩ := isFinite_of_add (h.elim id id)
  exact hfin.elim (fun h => Bool.noConfusion (ha.symm.trans h))
    fun h => Bool.noConfusion (hb.symm.trans h)

/-- Sums of ends in order are in order. -/
theorem ofSum_lo_le_hi {a' b' : Float} (h : IsNumber (a + b)) (h' : IsNumber (a' + b'))
    (ha : value a ≤ value a') (hb : value b ≤ value b') : (ofSum a b).lo ≤ (ofSum a' b').hi := by
  obtain ⟨hl, -, hlo, -⟩ := ofSum_brackets_add h
  obtain ⟨-, hh, -, hhi⟩ := ofSum_brackets_add h'
  exact le_iff.mpr ⟨hl, hh, hlo.trans ((value_add_le h h' ha hb).trans hhi)⟩

/-- **The ends of a sum are in order** when those of the terms are. -/
theorem Orderly.add (hX : X.Orderly) (hY : Y.Orderly) : (X + Y).Orderly where
  not_reversed hlt := by
    rw [add_lo, add_hi] at hlt
    obtain ⟨hh, hl, hvalue⟩ := lt_iff.mp hlt
    have hsumlo := isNumber_of_ofSum (.inl hl)
    have hsumhi := isNumber_of_ofSum (.inr hh)
    obtain ⟨hXl, hYl⟩ := isNumber_of_add hsumlo
    obtain ⟨hXh, hYh⟩ := isNumber_of_add hsumhi
    have hle := ofSum_lo_le_hi hsumlo hsumhi
      (not_lt.mp fun h => hX.not_reversed (lt_iff.mpr ⟨hXh, hXl, h⟩))
      (not_lt.mp fun h => hY.not_reversed (lt_iff.mpr ⟨hYh, hYl, h⟩))
    exact absurd hvalue (not_lt.mpr (le_iff.mp hle).2.2)
  le_of_finite hfin := by
    rw [add_lo, add_hi] at hfin ⊢
    rcases hfin with hfin | hfin
    · -- finite lower ends keep the upper ends from negative infinity
      obtain ⟨hfX, hfY⟩ := isFinite_of_ofSum (.inl hfin)
      obtain ⟨-, hXh, hXle⟩ := le_iff.mp (hX.le_of_finite (.inl hfX))
      obtain ⟨-, hYh, hYle⟩ := le_iff.mp (hY.le_of_finite (.inl hfY))
      have hXbot := ne_bot_of_coe_le (coe_real hfX ▸ hXle)
      have hYbot := ne_bot_of_coe_le (coe_real hfY ▸ hYle)
      exact ofSum_lo_le_hi (add_spec hfX hfY).1
        (isNumber_add hXh hYh (fun h => hYbot h.2) fun h => hXbot h.1) hXle hYle
    · obtain ⟨hfX, hfY⟩ := isFinite_of_ofSum (.inr hfin)
      obtain ⟨hXl, -, hXle⟩ := le_iff.mp (hX.le_of_finite (.inr hfX))
      obtain ⟨hYl, -, hYle⟩ := le_iff.mp (hY.le_of_finite (.inr hfY))
      have hXtop := ne_top_of_le_coe (coe_real hfX ▸ hXle)
      have hYtop := ne_top_of_le_coe (coe_real hfY ▸ hYle)
      exact ofSum_lo_le_hi (isNumber_add hXl hYl (fun h => hXtop h.1) fun h => hYtop h.2)
        (add_spec hfX hfY).1 hXle hYle

theorem Orderly.sub (hX : X.Orderly) (hY : Y.Orderly) : (X - Y).Orderly := by
  rw [sub_eq_add]
  exact hX.add hY.neg

/-- **A product is orderly**, whatever the factors are. -/
theorem orderly_mul (X Y : Interval) : (X * Y).Orderly := by
  rw [mul_def]
  split_ifs
  · exact orderly_point 0
  by_cases h : ∃ a ∈ [X.lo, X.hi], ∃ b ∈ [Y.lo, Y.hi], ∃ r, (ofProduct a b).Brackets r
  · obtain ⟨a, ha, b, hb, r, hr⟩ := h
    obtain ⟨hl, hlo⟩ := corners_lo_le ha hb hr.1
    obtain ⟨hh, hhi⟩ := le_corners_hi ha hb hr.2.1
    exact orderly_of_le (le_iff.mpr ⟨hl, hh, hlo.trans ((hr.2.2.1.trans hr.2.2.2).trans hhi)⟩)
  · refine (corners_isNaN fun a ha b hb => ?_).orderly
    exact (ofProduct_isNaN_or_brackets a b).resolve_right fun hr => h ⟨a, ha, b, hb, hr⟩

theorem orderly_leftSum {n : ℕ} {f : Fin n → Interval} (h : ∀ i, (f i).Orderly) :
    (leftSum f).Orderly :=
  leftSum_induction (P := Orderly) (orderly_point 0) Orderly.add h

/-- **An orderly interval with a zero end holds zero.** -/
theorem Orderly.zero_mem (h : X.Orderly) (h0 : X.HasZeroEnd) : (0 : ℝ) ∈ X := by
  obtain ⟨a, ha, hzero⟩ := h0
  obtain ⟨hnum, -, hval⟩ := beq_iff.mp hzero
  rw [value_zero] at hval
  have hfin : a.isFinite = true := isFinite_of_value (r := 0) hnum hval
  simp only [List.mem_cons, List.not_mem_nil, or_false] at ha
  rcases ha with rfl | rfl
  · obtain ⟨hl, hh, hle⟩ := le_iff.mp (h.le_of_finite (.inl hfin))
    exact ⟨hl, hh, hval.le, hval.ge.trans hle⟩
  · obtain ⟨hl, hh, hle⟩ := le_iff.mp (h.le_of_finite (.inr hfin))
    exact ⟨hl, hh, hle.trans hval.le, hval.ge⟩

/-! ## Upper ends that are not below a bound -/

/-- **The upper end is not below `c`**, as far as it is a number. -/
def NotBelow (c : ℝ) (X : Interval) : Prop := IsNumber X.hi → (c : EReal) ≤ value X.hi

theorem notBelow_of_mem (hx : x ∈ X) (h : c ≤ x) : NotBelow c X := fun _ =>
  (EReal.coe_le_coe_iff.mpr h).trans hx.2.2.2

/-- **Sums keep lower bounds of upper ends.** -/
theorem NotBelow.add (hX : NotBelow c X) (hY : NotBelow d Y) (hrep : Representable (c + d))
    (hlt : |c + d| < limit) : NotBelow (c + d) (X + Y) := by
  intro hnum
  rw [add_hi] at hnum ⊢
  obtain ⟨hXh, hYh⟩ := isNumber_of_add (isNumber_of_ofSum (.inr hnum))
  refine (le_ofSum_hi hXh hYh (ne_bot_of_coe_le (hX hXh)) (ne_bot_of_coe_le (hY hYh))).2 _ hrep hlt ?_
  rw [EReal.coe_add]
  exact add_le_add (hX hXh) (hY hYh)

theorem zero_notBelow : NotBelow 0 0 := fun _ => by
  rw [EReal.coe_zero]
  exact value_zero.ge

/-- Zero is below no absolute value of an orderly interval. -/
theorem Orderly.abs_notBelow (h : X.Orderly) : NotBelow 0 X.abs := by
  unfold NotBelow Interval.abs
  rw [EReal.coe_zero]
  split_ifs with hpos hneg
  · obtain ⟨-, hl, hle⟩ := le_iff.mp hpos
    rw [value_zero] at hle
    exact fun hh => hle.trans (not_lt.mp fun hlt => h.not_reversed (lt_iff.mpr ⟨hh, hl, hlt⟩))
  · obtain ⟨hh, -, hle⟩ := le_iff.mp hneg
    rw [value_zero] at hle
    rw [neg_hi]
    intro hnum
    have hl := isNumber_of_neg hnum
    have hlo := not_lt.mp fun hlt => h.not_reversed (lt_iff.mpr ⟨hh, hl, hlt⟩)
    rw [value_neg hl]
    exact EReal.neg_nonneg.mpr (hlo.trans hle)
  · rw [mk_hi]
    intro hnum
    by_cases hh : IsNumber X.hi
    · rw [nonpos_iff hh, not_le] at hneg
      exact hneg.le.trans (le_larger.1 hh).2
    · rw [larger_of_nan_left hh] at hnum ⊢
      have hl := isNumber_of_neg hnum
      rw [nonneg_iff hl, not_le] at hpos
      rw [value_neg hl]
      exact EReal.neg_nonneg.mpr hpos.le

theorem notBelow_leftSum {n : ℕ} {f : Fin n → Interval} (h : ∀ i, NotBelow 0 (f i))
    (h1 : ∃ i, NotBelow 1 (f i)) : NotBelow 1 (leftSum f) := by
  have hrep : Representable 1 := real_one ▸ representable_real isFinite_one
  have hlimit : |(1 : ℝ)| < limit := real_one ▸ abs_real_lt isFinite_one
  refine leftSum_of_exists (P := NotBelow 1) (Q := NotBelow 0) zero_notBelow ?_ ?_ ?_ h h1
  · intro X Y hX hY
    have hadd := hX.add hY
    rw [add_zero] at hadd
    exact hadd representable_zero (by rw [abs_zero]; exact limit_pos)
  · intro X Y hX hY
    have hadd := hX.add hY
    rw [add_zero] at hadd
    exact hadd hrep hlimit
  · intro X Y hX hY
    have hadd := hX.add hY
    rw [zero_add] at hadd
    exact hadd hrep hlimit

/-! ## Doubling -/

/-- **Doubling is exact**, short of an overflow. -/
theorem real_add_self (ha : a.isFinite = true) (hs : (a + a).isFinite = true) :
    real (a + a) = 2 * real a := by
  rw [real_eq_rounded (add_spec ha ha).2 hs, ← two_mul, rounded_eq (representable_real ha).two_mul]

/-- A doubled positive number is enclosed above the number itself. -/
theorem le_ofSum_self_lo (ha : a.isFinite = true) (hpos : 0 < real a) :
    value a ≤ value (ofSum a a).lo := by
  obtain ⟨hnum, hval⟩ := add_spec ha ha
  have hle : value a ≤ value (a + a) := by
    rw [hval]
    refine value_le_clamp_rounded (isNumber_of_isFinite ha) ?_
    rw [← coe_real ha, EReal.coe_le_coe_iff]
    linarith
  unfold ofSum
  rcases Bool.eq_false_or_eq_true (a + a).isFinite with hs | hs
  · simp only [hs, if_true]
    refine le_trans (le_nextDown_of_value_lt hnum (isNumber_of_isFinite ha) ?_)
      (nextDown_le_besides_lo hnum)
    rw [← coe_real ha, ← coe_real hs, real_add_self ha hs, EReal.coe_lt_coe_iff]
    linarith
  · simp only [hs, ha, Bool.false_eq_true, if_false, if_true, Bool.and_self]
    exact le_ofOverflow_lo hnum ha (eq_top_of_le hnum hs ha hle)

/-- A doubled negative number is enclosed below the number itself. -/
theorem ofSum_self_hi_le (ha : a.isFinite = true) (hneg : real a < 0) :
    value (ofSum a a).hi ≤ value a := by
  obtain ⟨hnum, hval⟩ := add_spec ha ha
  have hle : value (a + a) ≤ value a := by
    rw [hval]
    refine clamp_rounded_le_value (isNumber_of_isFinite ha) ?_
    rw [← coe_real ha, EReal.coe_le_coe_iff]
    linarith
  unfold ofSum
  rcases Bool.eq_false_or_eq_true (a + a).isFinite with hs | hs
  · simp only [hs, if_true]
    refine (besides_hi_le_nextUp hnum).trans
      (nextUp_le_of_value_lt hnum (isNumber_of_isFinite ha) ?_)
    rw [← coe_real ha, ← coe_real hs, real_add_self ha hs, EReal.coe_lt_coe_iff]
    linarith
  · simp only [hs, ha, Bool.false_eq_true, if_false, if_true, Bool.and_self]
    exact ofOverflow_hi_le hnum ha (eq_bot_of_le hnum hs ha hle)

/-- A doubled number has a zero end only when it is zero itself. -/
theorem beq_zero_of_double {c : Float} (hc : c ∈ [(ofSum a a).lo, (ofSum a a).hi])
    (h0 : (c == 0) = true) : (a == 0) = true := by
  obtain ⟨hnum, -, hval⟩ := beq_iff.mp h0
  rw [value_zero] at hval
  have hfin : c.isFinite = true := isFinite_of_value (r := 0) hnum hval
  simp only [List.mem_cons, List.not_mem_nil, or_false] at hc
  obtain ⟨ha, -⟩ := isFinite_of_ofSum (hc.imp (fun h => h ▸ hfin) fun h => h ▸ hfin)
  obtain ⟨-, -, hlo, hhi⟩ := ofSum_brackets_add (add_spec ha ha).1
  have hends : value (ofSum a a).lo ≤ value c ∧ value c ≤ value (ofSum a a).hi := by
    rcases hc with rfl | rfl
    · exact ⟨le_rfl, hlo.trans hhi⟩
    · exact ⟨hlo.trans hhi, le_rfl⟩
  rw [hval] at hends
  rw [beq_zero_iff (isNumber_of_isFinite ha), ← coe_real ha]
  rcases lt_trichotomy (real a) 0 with hneg | hzero | hpos
  · have hle := hends.2.trans (ofSum_self_hi_le ha hneg)
    rw [← coe_real ha] at hle
    exact absurd (EReal.coe_nonneg.mp hle) (not_le.mpr hneg)
  · rw [hzero, EReal.coe_zero]
  · have hle := (le_ofSum_self_lo ha hpos).trans hends.1
    rw [← coe_real ha] at hle
    exact absurd (EReal.coe_nonpos.mp hle) (not_le.mpr hpos)

theorem hasZeroEnd_of_double (h : (X + X).HasZeroEnd) : X.HasZeroEnd := by
  obtain ⟨c, hc, h0⟩ := h
  rw [add_lo, add_hi, List.mem_pair] at hc
  rcases hc with hc | hc
  · exact ⟨X.lo, by simp, beq_zero_of_double (by simp [hc]) h0⟩
  · exact ⟨X.hi, by simp, beq_zero_of_double (by simp [hc]) h0⟩

/-- A weight leaves a zero end in place. -/
theorem IsWeight.mul_hasZeroEnd {w : ℝ} (hX : IsWeight X w) (hY : Y.lo ≤ Y.hi) (h0 : Y.HasZeroEnd) :
    (X * Y).HasZeroEnd := by
  have hzero : (0 : ℝ) ∈ Y := (orderly_of_le hY).zero_mem h0
  obtain ⟨hl, hh, hlo, hhi⟩ := mem_iff.mp (zero_mem_mul_of_zeroEnd (X := X) (.inr h0))
  rw [EReal.coe_zero] at hlo hhi
  obtain ⟨b, hb, hb0⟩ := h0
  rw [List.mem_pair] at hb
  rcases hb with rfl | rfl
  · -- nothing below zero on the right, so nothing below zero in the product
    have hmag : IsMagnitude Y 0 := ⟨hzero, ((beq_zero_iff hzero.1).mp hb0).ge⟩
    refine ⟨(X * Y).lo, by simp, (beq_zero_iff hl).mpr (le_antisymm hlo ?_)⟩
    exact (hX.mul_magnitude hmag).2
  · refine ⟨(X * Y).hi, by simp, (beq_zero_iff hh).mpr (le_antisymm ?_ hhi)⟩
    refine mul_hi_le hX.1 hzero (fun _ => le_rfl) fun a ha b hb => ?_
    obtain ⟨hanum, ha1⟩ := le_of_mem_ends hX.1 hX.2 a ha
    have hYhi := ((beq_zero_iff hzero.2.1).mp hb0).le
    rw [List.mem_pair] at hb
    rcases hb with rfl | rfl
    · exact ofProduct_hi_le_zero hanum hzero.1 ha1 (hzero.2.2.1.trans EReal.coe_zero.le)
    · exact ofProduct_hi_le_zero hanum hzero.2.1 ha1 hYhi

end CertifiedZeros.Interval
