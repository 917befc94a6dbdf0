import CertifiedZeros.Proofs.Aggregate
import CertifiedZeros.Proofs.Interval.Weights

/-! # Intervals with NaN endpoints

A NaN is in no order with anything, and minima and maxima drop it. So whether a NaN operand shows in
the result of an operation depends on the operation and on the other operand:

* **`IsNaN X`** — both endpoints are NaN, as they are for the point of a NaN.
* **`IsNaN.add`**, **`isNaN_mul`** — a sum keeps it, and so does a product with an interval that has
  no zero among its ends.
* **`zero_mem_mul_of_zeroEnd`** — with a zero among them the product holds zero, whatever the other
  factor is. -/

namespace CertifiedZeros.Interval

open Binary64

variable {X Y : Interval} {x : ℝ} {a b : Float}

/-! ## NaN on both ends -/

/-- **Both ends are NaN**, as they are for the point of a NaN. -/
def IsNaN (X : Interval) : Prop := ¬IsNumber X.lo ∧ ¬IsNumber X.hi

theorem isNaN_point (h : ¬IsNumber a) : (point a).IsNaN := ⟨h, h⟩

theorem IsNaN.neg (h : X.IsNaN) : (-X).IsNaN := ⟨not_isNumber_neg h.2, not_isNumber_neg h.1⟩

theorem ofSum_isNaN (h : ¬IsNumber a ∨ ¬IsNumber b) : (ofSum a b).IsNaN := by
  rw [ofSum_eq_point (h.imp isFinite_of_not_isNumber isFinite_of_not_isNumber)]
  exact isNaN_point (not_isNumber_add h)

/-- **A sum with a NaN term is NaN.** -/
theorem IsNaN.add (h : X.IsNaN ∨ Y.IsNaN) : (X + Y).IsNaN := by
  rw [IsNaN, add_lo, add_hi]
  exact ⟨(ofSum_isNaN (h.imp And.left And.left)).1, (ofSum_isNaN (h.imp And.right And.right)).2⟩

theorem IsNaN.sub (h : X.IsNaN ∨ Y.IsNaN) : (X - Y).IsNaN := by
  rw [sub_eq_add]
  exact IsNaN.add (h.imp_right IsNaN.neg)

theorem isNaN_leftSum {n : ℕ} {f : Fin n → Interval} (h : ∃ i, (f i).IsNaN) :
    (leftSum f).IsNaN := by
  refine leftSum_of_exists (P := IsNaN) (Q := fun _ => True) trivial (fun _ _ => trivial) ?_ ?_
    (fun _ => trivial) h
  · intro X Y hX _
    exact IsNaN.add (.inl hX)
  · intro X Y _ hY
    exact IsNaN.add (.inr hY)

/-- The absolute value of a NaN keeps it in the upper end alone. -/
theorem IsNaN.abs_hi (h : X.IsNaN) : ¬IsNumber X.abs.hi := by
  unfold Interval.abs
  split_ifs with hpos hneg
  · exact h.2
  · exact not_isNumber_neg h.1
  · rw [mk_hi, larger_of_nan_left h.2]
    exact not_isNumber_neg h.1

/-! ## Products -/

/-- **One of the ends is zero.** -/
def HasZeroEnd (X : Interval) : Prop := ∃ a ∈ [X.lo, X.hi], (a == 0) = true

theorem hasZeroEnd_point (h : (a == 0) = true) : (point a).HasZeroEnd := ⟨a, by simp [point], h⟩

theorem beq_zero_of_point (h : (point a).HasZeroEnd) : (a == 0) = true := by
  obtain ⟨b, hb, h0⟩ := h
  simp only [point, List.mem_cons, List.not_mem_nil, or_false, or_self] at hb
  rwa [← hb]

theorem HasZeroEnd.neg (h : X.HasZeroEnd) : (-X).HasZeroEnd := by
  obtain ⟨a, ha, h0⟩ := h
  have hnum := (beq_iff.mp h0).1
  refine ⟨-a, ?_, ?_⟩
  · simp only [List.mem_cons, List.not_mem_nil, or_false, neg_lo, neg_hi] at ha ⊢
    exact ha.symm.imp (congrArg _) (congrArg _)
  · rw [beq_zero_iff (isNumber_neg hnum), value_neg hnum, (beq_zero_iff hnum).mp h0, neg_zero]

theorem ofProduct_isNaN (h : ¬IsNumber a ∧ ¬(b == 0) = true ∨ ¬(a == 0) = true ∧ ¬IsNumber b) :
    (ofProduct a b).IsNaN := by
  have hnan : ¬IsNumber a ∨ ¬IsNumber b := h.imp And.left And.right
  have hne : ∀ {c : Float}, ¬IsNumber c → ¬(c == 0) = true := fun hc h0 => hc (beq_iff.mp h0).1
  have hzero : ¬(a == 0 || b == 0) = true := by
    rw [Bool.or_eq_true, not_or]
    exact h.elim (fun h => ⟨hne h.1, h.2⟩) fun h => ⟨h.1, hne h.2⟩
  have hprod : ¬IsNumber (a * b) := not_isNumber_mul hnan
  have hand : (a.isFinite && b.isFinite) = false := by
    rcases hnan with h | h <;> simp [isFinite_of_not_isNumber h]
  simp only [ofProduct, hzero, isFinite_of_not_isNumber hprod, hand, Bool.false_eq_true, if_false]
  exact isNaN_point hprod

/-- A product of two floats is NaN, or encloses the product of their values. -/
theorem ofProduct_isNaN_or_brackets (a b : Float) :
    (ofProduct a b).IsNaN ∨ ∃ r, (ofProduct a b).Brackets r := by
  by_cases hzero : (a == 0 || b == 0) = true
  · rw [ofProduct, if_pos hzero]
    exact .inr ⟨0, zero_brackets⟩
  rw [Bool.or_eq_true, not_or] at hzero
  by_cases ha : IsNumber a
  · by_cases hb : IsNumber b
    · exact .inr ⟨_, ofProduct_brackets ha hb⟩
    · exact .inl (ofProduct_isNaN (.inr ⟨hzero.1, hb⟩))
  · exact .inl (ofProduct_isNaN (.inl ⟨ha, hzero.2⟩))

theorem mul_def (X Y : Interval) :
    X * Y = if X == 0 || Y == 0 then 0 else corners ofProduct X Y := rfl

/-- A hull of four NaN is NaN. -/
theorem corners_isNaN {f : Float → Float → Interval}
    (h : ∀ a ∈ [X.lo, X.hi], ∀ b ∈ [Y.lo, Y.hi], (f a b).IsNaN) : (corners f X Y).IsNaN := by
  simp only [List.mem_cons, List.not_mem_nil, or_false, forall_eq_or_imp, forall_eq] at h
  obtain ⟨⟨hll, hlh⟩, hhl, hhh⟩ := h
  have hhull : ∀ {U V : Interval}, U.IsNaN → V.IsNaN → (U.hull V).IsNaN := fun hU hV => by
    rw [IsNaN, hull, mk_lo, mk_hi, smaller_of_nan_left hU.1, larger_of_nan_left hU.2]
    exact hV
  exact hhull (hhull (hhull hll hlh) hhl) hhh

/-- **A product is NaN** when one factor is and the other one has no zero end. -/
theorem isNaN_mul (h : X.IsNaN ∧ ¬Y.HasZeroEnd ∨ ¬X.HasZeroEnd ∧ Y.IsNaN) : (X * Y).IsNaN := by
  have hends : ∀ {Z : Interval}, ¬Z.HasZeroEnd → ∀ c ∈ [Z.lo, Z.hi], ¬(c == 0) = true :=
    fun hZ c hc h0 => hZ ⟨c, hc, h0⟩
  have hnan : ∀ {Z : Interval}, Z.IsNaN → ∀ c ∈ [Z.lo, Z.hi], ¬IsNumber c := by
    simp only [List.mem_cons, List.not_mem_nil, or_false, forall_eq_or_imp, forall_eq]
    exact id
  have hne : ∀ {Z : Interval}, Z.IsNaN ∨ ¬Z.HasZeroEnd → ¬(Z == 0) = true := by
    rintro Z (hZ | hZ) h0
    · exact hZ.1 (beq_iff.mp ((Bool.and_eq_true _ _).mp h0).1).1
    · exact hZ ⟨Z.lo, by simp, ((Bool.and_eq_true _ _).mp h0).1⟩
  have hzero : ¬(X == 0 || Y == 0) = true := by
    rw [Bool.or_eq_true, not_or]
    exact h.elim (fun h => ⟨hne (.inl h.1), hne (.inr h.2)⟩)
      fun h => ⟨hne (.inr h.1), hne (.inl h.2)⟩
  rw [mul_def, if_neg hzero]
  refine corners_isNaN fun a ha b hb => ofProduct_isNaN ?_
  exact h.imp (fun h => ⟨hnan h.1 a ha, hends h.2 b hb⟩) fun h => ⟨hends h.1 a ha, hnan h.2 b hb⟩

/-- A corner of a product that encloses a number on one side of zero. -/
theorem zero_mem_corners {f : Float → Float → Interval}
    (hlo : ∃ a ∈ [X.lo, X.hi], ∃ b ∈ [Y.lo, Y.hi], IsNumber (f a b).lo ∧ value (f a b).lo ≤ 0)
    (hhi : ∃ a ∈ [X.lo, X.hi], ∃ b ∈ [Y.lo, Y.hi], IsNumber (f a b).hi ∧ 0 ≤ value (f a b).hi) :
    (0 : ℝ) ∈ corners f X Y := by
  obtain ⟨a, ha, b, hb, hnum, hle⟩ := hlo
  obtain ⟨a', ha', b', hb', hnum', hle'⟩ := hhi
  obtain ⟨hl, hll⟩ := corners_lo_le ha hb hnum
  obtain ⟨hh, hhh⟩ := le_corners_hi ha' hb' hnum'
  exact ⟨hl, hh, hll.trans hle, hle'.trans hhh⟩

/-- **A zero end brings zero into a product**, whatever the other factor is. -/
theorem zero_mem_mul_of_zeroEnd (h : X.HasZeroEnd ∨ Y.HasZeroEnd) : (0 : ℝ) ∈ X * Y := by
  rw [mul_def]
  split_ifs
  · exact zero_brackets
  obtain ⟨a, ha, b, hb, hab⟩ : ∃ a ∈ [X.lo, X.hi], ∃ b ∈ [Y.lo, Y.hi], ofProduct a b = 0 := by
    rcases h with ⟨a, ha, h0⟩ | ⟨b, hb, h0⟩
    · exact ⟨a, ha, Y.lo, by simp, if_pos (by rw [h0, Bool.true_or])⟩
    · exact ⟨X.lo, by simp, b, hb, if_pos (by rw [h0, Bool.or_true])⟩
  exact zero_mem_corners ⟨a, ha, b, hb, hab ▸ zero_brackets.1, hab ▸ zero_brackets.2.2.1⟩
    ⟨a, ha, b, hb, hab ▸ zero_brackets.2.1, hab ▸ zero_brackets.2.2.2⟩

/-- A number times an interval around zero holds zero, also for an infinite one. -/
theorem zero_mem_point_mul (ha : IsNumber a) (hY : (0 : ℝ) ∈ Y) : (0 : ℝ) ∈ point a * Y := by
  obtain ⟨hYl, hYh, hlo, hhi⟩ := mem_iff.mp hY
  rw [EReal.coe_zero] at hlo hhi
  have hl := ofProduct_brackets ha hYl
  have hh := ofProduct_brackets ha hYh
  rw [mul_def]
  split_ifs
  · exact zero_brackets
  have hmem : a ∈ [(point a).lo, (point a).hi] := by simp [point]
  rcases le_total 0 (value a) with h0 | h0
  · exact zero_mem_corners
      ⟨a, hmem, Y.lo, by simp, hl.1, hl.2.2.1.trans (mul_nonpos_of_nonneg_of_nonpos h0 hlo)⟩
      ⟨a, hmem, Y.hi, by simp, hh.2.1, (mul_nonneg h0 hhi).trans hh.2.2.2⟩
  · exact zero_mem_corners
      ⟨a, hmem, Y.hi, by simp, hh.1, hh.2.2.1.trans (mul_nonpos_of_nonpos_of_nonneg h0 hhi)⟩
      ⟨a, hmem, Y.lo, by simp, hl.2.1, (EReal.mul_nonneg_iff.mpr (.inr ⟨h0, hlo⟩)).trans hl.2.2.2⟩

/-- **Any float times an interval around zero** holds zero or is NaN. -/
theorem zero_mem_or_isNaN_mul (hY : (0 : ℝ) ∈ Y) :
    (0 : ℝ) ∈ point a * Y ∨ (point a * Y).IsNaN := by
  by_cases ha : IsNumber a
  · exact .inl (zero_mem_point_mul ha hY)
  · by_cases h0 : Y.HasZeroEnd
    · exact .inl (zero_mem_mul_of_zeroEnd (.inr h0))
    · exact .inr (isNaN_mul (.inl ⟨isNaN_point ha, h0⟩))

/-! ## Sums -/

/-- **A sum with an interval around zero** loses no member. -/
theorem mem_add_of_zero_mem (hx : x ∈ X) (hY : (0 : ℝ) ∈ Y) : x ∈ X + Y := by
  have hmem := add_mem (sumAbove_of_nonpos le_rfl hY.2.2.1) (sumBelow_of_nonneg le_rfl hY.2.2.2) hx hY
  rwa [add_zero] at hmem

theorem zero_mem_neg (hX : (0 : ℝ) ∈ X) : (0 : ℝ) ∈ -X := by
  have hmem := neg_mem hX
  rwa [neg_zero] at hmem

theorem mem_sub_of_zero_mem (hx : x ∈ X) (hY : (0 : ℝ) ∈ Y) : x ∈ X - Y := by
  rw [sub_eq_add]
  exact mem_add_of_zero_mem hx (zero_mem_neg hY)

theorem zero_mem_leftSum {n : ℕ} {f : Fin n → Interval} (h : ∀ i, (0 : ℝ) ∈ f i) :
    (0 : ℝ) ∈ leftSum f :=
  leftSum_induction (P := fun X => (0 : ℝ) ∈ X) zero_brackets mem_add_of_zero_mem h

end CertifiedZeros.Interval
