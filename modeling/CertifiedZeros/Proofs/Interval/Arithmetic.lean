import CertifiedZeros.Interval.Arithmetic
import CertifiedZeros.Proofs.Interval.PointOperations

/-! # What interval operations enclose

The members of the operands are combined in exact arithmetic, and the result is asked to hold them:

* **`hull_spec`**, **`corners_spec`** — the endpoints of a hull are extremes of the endpoints it is
  made of.
* **`ofSum_lo_spec`**, **`ofSum_hi_spec`** — the two ends of an interval sum, infinite endpoints
  included.
* **`add_mem`**, **`sub_mem`** — sums and differences, where no rounding error is lost;
  **`mul_mem`**, **`neg_mem`**, **`abs_mem`**, **`larger_mem`**, **`mem_hull_left`** — without
  conditions. -/

namespace CertifiedZeros.Interval

open Binary64

variable {X Y : Interval} {x y : ℝ}

/-! ## Maximum, minimum and hull -/

theorem larger_spec {a b : Float} (ha : IsNumber a) (hb : IsNumber b) :
    IsNumber (Binary64.larger a b) ∧ value (Binary64.larger a b) = max (value a) (value b) := by
  have hna : a.isNaN = false := ha
  have hnb : b.isNaN = false := hb
  unfold Binary64.larger
  rw [hna, hnb]
  simp only [Bool.false_eq_true, if_false]
  split_ifs with h
  · exact ⟨hb, (max_eq_right (lt_iff.mp h).2.2.le).symm⟩
  · refine ⟨ha, (max_eq_left (not_lt.mp fun hlt => h (lt_iff.mpr ⟨ha, hb, hlt⟩))).symm⟩

/-- The maximum of finite floats, as a real number. -/
theorem larger_finite {a b : Float} (ha : a.isFinite = true) (hb : b.isFinite = true) :
    (Binary64.larger a b).isFinite = true ∧
      real (Binary64.larger a b) = max (real a) (real b) := by
  obtain ⟨hnum, hvalue⟩ := larger_spec (isNumber_of_isFinite ha) (isNumber_of_isFinite hb)
  have hreal : value (Binary64.larger a b) = ((max (real a) (real b) : ℝ) : EReal) := by
    rw [hvalue, ← coe_real ha, ← coe_real hb]
    exact (EReal.coe_strictMono.monotone.map_max).symm
  exact ⟨isFinite_of_value hnum hreal, real_eq_of_value hreal⟩

theorem smaller_spec {a b : Float} (ha : IsNumber a) (hb : IsNumber b) :
    IsNumber (Binary64.smaller a b) ∧ value (Binary64.smaller a b) = min (value a) (value b) := by
  have hna : a.isNaN = false := ha
  have hnb : b.isNaN = false := hb
  unfold Binary64.smaller
  rw [hna, hnb]
  simp only [Bool.false_eq_true, if_false]
  split_ifs with h
  · exact ⟨hb, (min_eq_right (lt_iff.mp h).2.2.le).symm⟩
  · refine ⟨ha, (min_eq_left (not_lt.mp fun hlt => h (lt_iff.mpr ⟨hb, ha, hlt⟩))).symm⟩

/-- Both endpoints are numbers. -/
def HasNumbers (X : Interval) : Prop := IsNumber X.lo ∧ IsNumber X.hi

theorem Brackets.hasNumbers {r : EReal} (h : X.Brackets r) : X.HasNumbers := ⟨h.1, h.2.1⟩

theorem brackets_iff {r : EReal} :
    X.Brackets r ↔ X.HasNumbers ∧ value X.lo ≤ r ∧ r ≤ value X.hi := by
  unfold Brackets HasNumbers
  tauto

/-- **The ends of a hull** are the least and the greatest of the ends. -/
theorem hull_spec (hX : X.HasNumbers) (hY : Y.HasNumbers) :
    (X.hull Y).HasNumbers ∧ value (X.hull Y).lo = min (value X.lo) (value Y.lo) ∧
      value (X.hull Y).hi = max (value X.hi) (value Y.hi) := by
  obtain ⟨hlo, hvlo⟩ := smaller_spec hX.1 hY.1
  obtain ⟨hhi, hvhi⟩ := larger_spec hX.2 hY.2
  exact ⟨⟨hlo, hhi⟩, hvlo, hvhi⟩

theorem mem_hull_left (hx : x ∈ X) (hY : Y.HasNumbers) : x ∈ X.hull Y := by
  obtain ⟨hX, hlo, hhi⟩ := brackets_iff.mp hx
  obtain ⟨hnum, hvlo, hvhi⟩ := hull_spec hX hY
  refine brackets_iff.mpr ⟨hnum, ?_, ?_⟩
  · rw [hvlo]
    exact min_le_of_left_le hlo
  · rw [hvhi]
    exact le_max_of_le_left hhi

theorem mem_hull_right (hX : X.HasNumbers) (hy : y ∈ Y) : y ∈ X.hull Y := by
  obtain ⟨hY, hlo, hhi⟩ := brackets_iff.mp hy
  obtain ⟨hnum, hvlo, hvhi⟩ := hull_spec hX hY
  refine brackets_iff.mpr ⟨hnum, ?_, ?_⟩
  · rw [hvlo]
    exact min_le_of_right_le hlo
  · rw [hvhi]
    exact le_max_of_le_right hhi

/-- **The ends of a hull of four** are reached at one of the corners. -/
theorem corners_spec {f : Float → Float → Interval}
    (h : ∀ a ∈ [X.lo, X.hi], ∀ b ∈ [Y.lo, Y.hi], (f a b).HasNumbers) :
    (corners f X Y).HasNumbers ∧
      (∀ r : EReal, value (corners f X Y).lo ≤ r
        ↔ ∃ a ∈ [X.lo, X.hi], ∃ b ∈ [Y.lo, Y.hi], value (f a b).lo ≤ r) ∧
      (∀ r : EReal, r ≤ value (corners f X Y).hi
        ↔ ∃ a ∈ [X.lo, X.hi], ∃ b ∈ [Y.lo, Y.hi], r ≤ value (f a b).hi) := by
  simp only [List.mem_cons, List.not_mem_nil, or_false, forall_eq_or_imp, forall_eq] at h
  obtain ⟨⟨hll, hlh⟩, hhl, hhh⟩ := h
  obtain ⟨hn₁, hlo₁, hhi₁⟩ := hull_spec hll hlh
  obtain ⟨hn₂, hlo₂, hhi₂⟩ := hull_spec hn₁ hhl
  obtain ⟨hn₃, hlo₃, hhi₃⟩ := hull_spec hn₂ hhh
  refine ⟨hn₃, fun r => ?_, fun r => ?_⟩
  · change value (((f X.lo Y.lo).hull (f X.lo Y.hi)).hull (f X.hi Y.lo) |>.hull
      (f X.hi Y.hi)).lo ≤ r ↔ _
    rw [hlo₃, hlo₂, hlo₁, min_le_iff, min_le_iff, min_le_iff]
    simp only [List.mem_cons, List.not_mem_nil, or_false, exists_eq_or_imp, exists_eq_left]
    tauto
  · change r ≤ value (((f X.lo Y.lo).hull (f X.lo Y.hi)).hull (f X.hi Y.lo) |>.hull
      (f X.hi Y.hi)).hi ↔ _
    rw [hhi₃, hhi₂, hhi₁, le_max_iff, le_max_iff, le_max_iff]
    simp only [List.mem_cons, List.not_mem_nil, or_false, exists_eq_or_imp, exists_eq_left]
    tauto

/-! ## Sums and differences -/

/-- **The lower end of a sum**, for operands that are not positive infinity. -/
theorem ofSum_lo_spec {a b : Float} (ha : IsNumber a) (hb : IsNumber b) (hat : value a ≠ ⊤)
    (hbt : value b ≠ ⊤) :
    IsNumber (ofSum a b).lo ∧ (value (ofSum a b).lo ≤ value a + value b ↔ sumAbove a b = false) := by
  by_cases hfin : a.isFinite = true ∧ b.isFinite = true
  · obtain ⟨hlo, -, hspec, -⟩ := ofSum_spec hfin.1 hfin.2
    rw [← coe_real hfin.1, ← coe_real hfin.2, ← EReal.coe_add]
    exact ⟨hlo, hspec⟩
  · have hinf : a.isFinite = false ∨ b.isFinite = false := by
      rwa [not_and_or, Bool.not_eq_true, Bool.not_eq_true] at hfin
    obtain ⟨hbr, habove, -⟩ := ofSum_infinite ha hb hinf (fun h => hat h.1) (fun h => hbt h.2)
    exact ⟨hbr.1, iff_of_true hbr.2.2.1 habove⟩

/-- **The upper end of a sum**, for operands that are not negative infinity. -/
theorem ofSum_hi_spec {a b : Float} (ha : IsNumber a) (hb : IsNumber b) (hat : value a ≠ ⊥)
    (hbt : value b ≠ ⊥) :
    IsNumber (ofSum a b).hi ∧ (value a + value b ≤ value (ofSum a b).hi ↔ sumBelow a b = false) := by
  by_cases hfin : a.isFinite = true ∧ b.isFinite = true
  · obtain ⟨-, hhi, -, hspec⟩ := ofSum_spec hfin.1 hfin.2
    rw [← coe_real hfin.1, ← coe_real hfin.2, ← EReal.coe_add]
    exact ⟨hhi, hspec⟩
  · have hinf : a.isFinite = false ∨ b.isFinite = false := by
      rwa [not_and_or, Bool.not_eq_true, Bool.not_eq_true] at hfin
    obtain ⟨hbr, -, hbelow⟩ := ofSum_infinite ha hb hinf (fun h => hbt h.2) (fun h => hat h.1)
    exact ⟨hbr.2.1, iff_of_true hbr.2.2.2 hbelow⟩

/-- **What a lost error cannot do**: the upper end of a sum stays above every float that is not
above the exact sum. -/
theorem le_ofSum_hi {a b : Float} (ha : IsNumber a) (hb : IsNumber b) (hat : value a ≠ ⊥)
    (hbt : value b ≠ ⊥) : value (ofSum a b).hi ≠ ⊥ ∧
      ∀ g : ℝ, Representable g → |g| < limit → (g : EReal) ≤ value a + value b →
        (g : EReal) ≤ value (ofSum a b).hi := by
  obtain ⟨-, hspec⟩ := ofSum_hi_spec ha hb hat hbt
  rcases Bool.eq_false_or_eq_true (sumBelow a b) with hlost | hkept
  · obtain ⟨hfa, hfb⟩ := isFinite_of_sumBelow hlost
    rw [sumBelow, Bool.and_eq_true] at hlost
    have hs := hlost.1
    have hsum := real_eq_rounded (add_spec hfa hfb).2 hs
    have hle : ((real (a + b) : ℝ) : EReal) ≤ value (ofSum a b).hi := by
      rw [ofSum, hs, coe_real hs]
      exact (besides_brackets hs).2.2.2
    refine ⟨fun h => ?_, fun g hg _ h => le_trans ?_ hle⟩
    · rw [h] at hle
      exact absurd hle (not_le.mpr (EReal.bot_lt_coe _))
    · rw [← coe_real hfa, ← coe_real hfb, ← EReal.coe_add, EReal.coe_le_coe_iff] at h
      rw [hsum, EReal.coe_le_coe_iff]
      exact le_rounded hg h
  · have hle := hspec.mpr hkept
    refine ⟨fun h => ?_, fun g _ _ h => h.trans hle⟩
    rw [h, le_bot_iff, EReal.add_eq_bot_iff] at hle
    exact hle.elim hat hbt

/-- An upper end whose second operand is not negative is kept. -/
theorem sumBelow_of_nonneg {a b : Float} {x : ℝ} (hx : 0 ≤ x) (h : (x : EReal) ≤ value b) :
    sumBelow a b = false := by
  by_contra hlost
  have hlost' := (Bool.not_eq_false _).mp hlost
  have hb := (sumBelow_spec hlost').1
  rw [← coe_real (isFinite_of_sumBelow hlost').2, EReal.coe_le_coe_iff, hb] at h
  linarith [limit_eq, topUnit_pos]

/-- A lower end whose second operand is not positive is kept. -/
theorem sumAbove_of_nonpos {a b : Float} {x : ℝ} (hx : x ≤ 0) (h : value b ≤ (x : EReal)) :
    sumAbove a b = false := by
  by_contra hlost
  have hlost' := (Bool.not_eq_false _).mp hlost
  have hb := (sumAbove_spec hlost').1
  rw [← coe_real (isFinite_of_sumAbove hlost').2, EReal.coe_le_coe_iff, hb] at h
  linarith [limit_eq, topUnit_pos]

/-- A lower end whose first operand is not negative is kept. -/
theorem sumAbove_of_nonneg {a b : Float} (h : 0 ≤ value a) : sumAbove a b = false := by
  by_contra hlost
  have hlost' := (Bool.not_eq_false _).mp hlost
  have ha := (sumAbove_spec hlost').2
  rw [← coe_real (isFinite_of_sumAbove hlost').1] at h
  linarith [topUnit_pos, EReal.coe_nonneg.mp h]

theorem ne_top_of_le_coe {u : EReal} {r : ℝ} (h : u ≤ r) : u ≠ ⊤ :=
  ne_top_of_le_ne_top (EReal.coe_ne_top r) h

theorem ne_bot_of_coe_le {u : EReal} {r : ℝ} (h : (r : EReal) ≤ u) : u ≠ ⊥ :=
  ne_bot_of_le_ne_bot (EReal.coe_ne_bot r) h

theorem add_def (X Y : Interval) : X + Y = ⟨(ofSum X.lo Y.lo).lo, (ofSum X.hi Y.hi).hi⟩ := rfl

theorem add_lo (X Y : Interval) : (X + Y).lo = (ofSum X.lo Y.lo).lo := by rw [add_def, mk_lo]

theorem add_hi (X Y : Interval) : (X + Y).hi = (ofSum X.hi Y.hi).hi := by rw [add_def, mk_hi]

/-- **A sum of members is enclosed** where no rounding error is lost. -/
theorem add_mem (hlo : sumAbove X.lo Y.lo = false) (hhi : sumBelow X.hi Y.hi = false)
    (hx : x ∈ X) (hy : y ∈ Y) : x + y ∈ X + Y := by
  obtain ⟨hXl, hXh, hxl, hxh⟩ := mem_iff.mp hx
  obtain ⟨hYl, hYh, hyl, hyh⟩ := mem_iff.mp hy
  obtain ⟨hnl, hsl⟩ := ofSum_lo_spec hXl hYl (ne_top_of_le_coe hxl) (ne_top_of_le_coe hyl)
  obtain ⟨hnh, hsh⟩ := ofSum_hi_spec hXh hYh (ne_bot_of_coe_le hxh) (ne_bot_of_coe_le hyh)
  rw [mem_iff, add_lo, add_hi]
  refine ⟨hnl, hnh, (hsl.mpr hlo).trans ?_, le_trans ?_ (hsh.mpr hhi)⟩
  · rw [EReal.coe_add]
    exact add_le_add hxl hyl
  · rw [EReal.coe_add]
    exact add_le_add hxh hyh

/-- **A sum is enclosed exactly where no rounding error is lost** on the outer side. -/
theorem add_mem_iff (hX : X.lo ≤ X.hi) (hY : Y.lo ≤ Y.hi) :
    (∀ x ∈ X, ∀ y ∈ Y, x + y ∈ X + Y)
      ↔ sumAbove X.lo Y.lo = false ∧ sumBelow X.hi Y.hi = false := by
  refine ⟨fun h => ⟨?_, ?_⟩, fun h x hx y hy => add_mem h.1 h.2 hx hy⟩
  · by_contra hlost
    have hfin := isFinite_of_sumAbove ((Bool.not_eq_false _).mp hlost)
    have hmem := (mem_iff.mp (h _ (lo_mem hX hfin.1) _ (lo_mem hY hfin.2))).2.2.1
    rw [add_lo] at hmem
    exact hlost ((ofSum_spec hfin.1 hfin.2).2.2.1.mp hmem)
  · by_contra hlost
    have hfin := isFinite_of_sumBelow ((Bool.not_eq_false _).mp hlost)
    have hmem := (mem_iff.mp (h _ (hi_mem hX hfin.1) _ (hi_mem hY hfin.2))).2.2.2
    rw [add_hi] at hmem
    exact hlost ((ofSum_spec hfin.1 hfin.2).2.2.2.mp hmem)

/-! ## Signs -/

theorem neg_lo (X : Interval) : (-X).lo = -X.hi := rfl

theorem neg_hi (X : Interval) : (-X).hi = -X.lo := rfl

theorem neg_hasNumbers (h : X.HasNumbers) : (-X).HasNumbers :=
  ⟨isNumber_neg h.2, isNumber_neg h.1⟩

/-- **The negatives of members** are the members of the negative interval. -/
theorem neg_mem_neg_iff (hX : X.HasNumbers) : -x ∈ -X ↔ x ∈ X := by
  have hmem : -x ∈ -X ↔ value (-X.hi) ≤ ((-x : ℝ) : EReal) ∧ ((-x : ℝ) : EReal) ≤ value (-X.lo) :=
    ⟨fun h => h.2.2, fun h => ⟨isNumber_neg hX.2, isNumber_neg hX.1, h⟩⟩
  rw [hmem, value_neg hX.1, value_neg hX.2, EReal.coe_neg, EReal.neg_le_neg_iff,
    EReal.neg_le_neg_iff, and_comm]
  exact ⟨fun h => ⟨hX.1, hX.2, h⟩, fun h => h.2.2⟩

theorem neg_mem (hx : x ∈ X) : -x ∈ -X := (neg_mem_neg_iff (Brackets.hasNumbers hx)).mpr hx

theorem neg_lo_le_neg_hi (hX : X.lo ≤ X.hi) : (-X).lo ≤ (-X).hi := by
  obtain ⟨hl, hh, hle⟩ := le_iff.mp hX
  rw [neg_lo, neg_hi]
  refine le_iff.mpr ⟨isNumber_neg hh, isNumber_neg hl, ?_⟩
  rw [value_neg hh, value_neg hl]
  exact EReal.neg_le_neg_iff.mpr hle

/-- **A difference adds the negative interval**, by the same computation. -/
theorem sub_eq_add (X Y : Interval) : X - Y = X + -Y := rfl

/-- **A difference of members is enclosed** where no rounding error is lost. -/
theorem sub_mem (hlo : sumAbove X.lo (-Y.hi) = false) (hhi : sumBelow X.hi (-Y.lo) = false)
    (hx : x ∈ X) (hy : y ∈ Y) : x - y ∈ X - Y := by
  rw [← neg_lo] at hlo
  rw [← neg_hi] at hhi
  rw [sub_eq_add, sub_eq_add_neg]
  exact add_mem hlo hhi hx (neg_mem hy)

/-- **A difference is enclosed exactly where no rounding error is lost** on the outer side. -/
theorem sub_mem_iff (hX : X.lo ≤ X.hi) (hY : Y.lo ≤ Y.hi) :
    (∀ x ∈ X, ∀ y ∈ Y, x - y ∈ X - Y)
      ↔ sumAbove X.lo (-Y.hi) = false ∧ sumBelow X.hi (-Y.lo) = false := by
  have hnum : Y.HasNumbers := ⟨(le_iff.mp hY).1, (le_iff.mp hY).2.1⟩
  rw [← neg_lo, ← neg_hi, ← add_mem_iff hX (neg_lo_le_neg_hi hY), sub_eq_add]
  refine ⟨fun h x hx y hy => ?_, fun h x hx y hy => ?_⟩
  · have hmem := h x hx (-y) ((neg_mem_neg_iff hnum).mp (by rwa [neg_neg]))
    rwa [sub_neg_eq_add] at hmem
  · rw [sub_eq_add_neg]
    exact h x hx (-y) (neg_mem hy)

/-! ## Absolute value and maximum -/

theorem nonneg_iff {a : Float} (ha : IsNumber a) : a ≥ 0 ↔ 0 ≤ value a := by
  change (0 : Float) ≤ a ↔ _
  rw [le_iff, value_zero]
  exact ⟨fun h => h.2.2, fun h => ⟨zero_isNumber, ha, h⟩⟩

theorem nonpos_iff {a : Float} (ha : IsNumber a) : a ≤ 0 ↔ value a ≤ 0 := by
  rw [le_iff, value_zero]
  exact ⟨fun h => h.2.2, fun h => ⟨ha, zero_isNumber, h⟩⟩

/-- **The absolute value of a member** belongs to the absolute value of the interval. -/
theorem abs_mem (hx : x ∈ X) : |x| ∈ X.abs := by
  obtain ⟨hXl, hXh, hxl, hxh⟩ := mem_iff.mp hx
  unfold Interval.abs
  split_ifs with hpos hneg
  · have h0 : (0 : EReal) ≤ x := ((nonneg_iff hXl).mp hpos).trans hxl
    rw [abs_of_nonneg (by exact_mod_cast h0)]
    exact hx
  · have h0 : (x : EReal) ≤ 0 := hxh.trans ((nonpos_iff hXh).mp hneg)
    rw [abs_of_nonpos (by exact_mod_cast h0)]
    exact neg_mem hx
  · obtain ⟨hnum, hval⟩ := larger_spec hXh (isNumber_neg hXl)
    rw [mem_iff, mk_lo, mk_hi]
    refine ⟨zero_isNumber, hnum, ?_, ?_⟩
    · rw [value_zero]
      exact_mod_cast abs_nonneg x
    · rw [hval, value_neg hXl]
      rcases abs_choice x with h | h <;> rw [h]
      · exact le_max_of_le_left hxh
      · rw [EReal.coe_neg]
        exact le_max_of_le_right (EReal.neg_le_neg_iff.mpr hxl)

/-- The lower end of an absolute value is not negative. -/
theorem abs_lo_nonneg (hX : X.HasNumbers) : 0 ≤ value X.abs.lo := by
  unfold Interval.abs
  split_ifs with hpos hneg
  · exact (nonneg_iff hX.1).mp hpos
  · rw [neg_lo, value_neg hX.2]
    exact EReal.neg_nonneg.mpr ((nonpos_iff hX.2).mp hneg)
  · rw [mk_lo, value_zero]

/-- **The maximum of two members** belongs to the maximum of the intervals. -/
theorem larger_mem (hx : x ∈ X) (hy : y ∈ Y) : max x y ∈ X.larger Y := by
  obtain ⟨hXl, hXh, hxl, hxh⟩ := mem_iff.mp hx
  obtain ⟨hYl, hYh, hyl, hyh⟩ := mem_iff.mp hy
  obtain ⟨hnl, hvl⟩ := larger_spec hXl hYl
  obtain ⟨hnh, hvh⟩ := larger_spec hXh hYh
  unfold Interval.larger
  rw [mem_iff, mk_lo, mk_hi, hvl, hvh]
  refine ⟨hnl, hnh, ?_, ?_⟩
  · rcases le_total x y with h | h
    · rw [max_eq_right h]
      exact max_le (hxl.trans (EReal.coe_le_coe_iff.mpr h)) hyl
    · rw [max_eq_left h]
      exact max_le hxl (hyl.trans (EReal.coe_le_coe_iff.mpr h))
  · rcases max_choice x y with h | h <;> rw [h]
    · exact le_max_of_le_left hxh
    · exact le_max_of_le_right hyh

/-! ## Products -/

/-- A product with a factor between two bounds is at least one of the products with the bounds. -/
theorem exists_mul_le {u v w c : EReal} (h : u ≤ w ∧ w ≤ v) : u * c ≤ w * c ∨ v * c ≤ w * c := by
  rcases le_total 0 c with hc | hc
  · exact .inl (mul_le_mul_of_nonneg_right h.1 hc)
  · refine .inr ?_
    have hneg := mul_le_mul_of_nonneg_right h.2 (EReal.neg_nonneg.mpr hc)
    rw [mul_neg, mul_neg, EReal.neg_le_neg_iff] at hneg
    exact hneg

/-- A product with a factor between two bounds is at most one of the products with the bounds. -/
theorem exists_le_mul {u v w c : EReal} (h : u ≤ w ∧ w ≤ v) : w * c ≤ u * c ∨ w * c ≤ v * c := by
  rcases le_total 0 c with hc | hc
  · exact .inr (mul_le_mul_of_nonneg_right h.2 hc)
  · refine .inl ?_
    have hneg := mul_le_mul_of_nonneg_right h.1 (EReal.neg_nonneg.mpr hc)
    rw [mul_neg, mul_neg, EReal.neg_le_neg_iff] at hneg
    exact hneg

/-- An interval whose ends are zero has no member but zero. -/
theorem eq_zero_of_mem (hX : (X == 0) = true) (hx : x ∈ X) : x = 0 := by
  obtain ⟨hXl, hXh, hxl, hxh⟩ := mem_iff.mp hx
  have hends : (X.lo == 0) = true ∧ (X.hi == 0) = true := (Bool.and_eq_true _ _).mp hX
  rw [(beq_zero_iff hXl).mp hends.1] at hxl
  rw [(beq_zero_iff hXh).mp hends.2] at hxh
  exact le_antisymm (by exact_mod_cast hxh) (by exact_mod_cast hxl)

/-- **A product of members is enclosed**, without any condition. -/
theorem mul_mem (hx : x ∈ X) (hy : y ∈ Y) : x * y ∈ X * Y := by
  have hdef : X * Y = if X == 0 || Y == 0 then 0 else corners ofProduct X Y := rfl
  obtain ⟨hXl, hXh, hxl, hxh⟩ := mem_iff.mp hx
  obtain ⟨hYl, hYh, hyl, hyh⟩ := mem_iff.mp hy
  rw [hdef]
  split_ifs with h0
  · have hzero : x * y = 0 := by
      rcases (Bool.or_eq_true _ _).mp h0 with h | h
      · rw [eq_zero_of_mem h hx, zero_mul]
      · rw [eq_zero_of_mem h hy, mul_zero]
    rw [hzero]
    exact zero_brackets
  · have hcorner : ∀ a ∈ [X.lo, X.hi], ∀ b ∈ [Y.lo, Y.hi],
        (ofProduct a b).Brackets (value a * value b) := by
      simp only [List.mem_cons, List.not_mem_nil, or_false, forall_eq_or_imp, forall_eq]
      exact ⟨⟨ofProduct_brackets hXl hYl, ofProduct_brackets hXl hYh⟩,
        ofProduct_brackets hXh hYl, ofProduct_brackets hXh hYh⟩
    obtain ⟨hnum, hlower, hupper⟩ := corners_spec (f := ofProduct) (X := X) (Y := Y)
      fun a ha b hb => (hcorner a ha b hb).hasNumbers
    rw [mem_iff, EReal.coe_mul]
    refine ⟨hnum.1, hnum.2, (hlower _).mpr ?_, (hupper _).mpr ?_⟩
    · -- move one factor after the other to an end where the product is not greater
      obtain ⟨a, ha, hxa⟩ : ∃ a ∈ [X.lo, X.hi], value a * y ≤ x * y := by
        rcases exists_mul_le (c := (y : EReal)) ⟨hxl, hxh⟩ with h | h
        · exact ⟨X.lo, by simp, h⟩
        · exact ⟨X.hi, by simp, h⟩
      obtain ⟨b, hb, hyb⟩ : ∃ b ∈ [Y.lo, Y.hi], value b * value a ≤ y * value a := by
        rcases exists_mul_le (c := value a) ⟨hyl, hyh⟩ with h | h
        · exact ⟨Y.lo, by simp, h⟩
        · exact ⟨Y.hi, by simp, h⟩
      rw [mul_comm, mul_comm (y : EReal)] at hyb
      exact ⟨a, ha, b, hb, ((hcorner a ha b hb).2.2.1.trans hyb).trans hxa⟩
    · obtain ⟨a, ha, hxa⟩ : ∃ a ∈ [X.lo, X.hi], (x : EReal) * y ≤ value a * y := by
        rcases exists_le_mul (c := (y : EReal)) ⟨hxl, hxh⟩ with h | h
        · exact ⟨X.lo, by simp, h⟩
        · exact ⟨X.hi, by simp, h⟩
      obtain ⟨b, hb, hyb⟩ : ∃ b ∈ [Y.lo, Y.hi], y * value a ≤ value b * value a := by
        rcases exists_le_mul (c := value a) ⟨hyl, hyh⟩ with h | h
        · exact ⟨Y.lo, by simp, h⟩
        · exact ⟨Y.hi, by simp, h⟩
      rw [mul_comm, mul_comm (value b)] at hyb
      exact ⟨a, ha, b, hb, hxa.trans (hyb.trans (hcorner a ha b hb).2.2.2)⟩

end CertifiedZeros.Interval
